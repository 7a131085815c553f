import GameCircuit.Circuit.Drawing
import GameCircuit.Game
import GameCircuit.Play.Machine
import GameCircuit.Text.Reader

/-!
# A demonstration

A small game, compiled and played: a robot has three turns, in each of which it may press a button
or wait, and wins if the light is on at the end.
-/

namespace GameCircuit.Demo

/-- The rules of the game. -/
def rules : String :=
  "role(robot);
  succ(1, 2);
  succ(2, 3);
  succ(3, 4);
  init(step(1));

  legal(robot, press);
  legal(robot, wait);

  next(step('y)) <= true(step('x)), succ('x, 'y);
  next(lit) <= does(robot, press);
  next(lit) <= true(lit), does(robot, wait);

  terminal <= true(step(4));
  goal(robot, 100) <= true(lit);
  goal(robot, 0) <= not(true(lit));"

/-- How many turns are played at most; the game is over before. -/
def turnLimit : Nat := 100

/-- Plays the first move that the player may make, until the game is over or there is none.  Returns
the moves and the last state. -/
def playFirst (m : Machine) (role : Symbol) :
    (turns : Nat) → GameState → Except CircuitError (List Nat × GameState)
  | 0, s => .ok ([], s)
  | turns + 1, s =>
    if m.isTerminal s then .ok ([], s)
    else
      match m.legalMoves s role with
      | [] => .ok ([], s)
      | chosen :: _ =>
        match m.nextState s [chosen] with
        | .error e => .error e
        | .ok s =>
          match playFirst m role turns s with
          | .error e => .error e
          | .ok (moves, s) => .ok (chosen :: moves, s)

/-- How a score is shown. -/
def showScore : Option Nat → String
  | some score => "Some(" ++ toString score ++ ")"
  | none => "None"

/-- The lines that report on a game. -/
def report (l : Lexicon) (m : Machine) (role : Symbol) : Except CircuitError (List String) :=
  match playFirst m role turnLimit m.initialState with
  | .error e => .error e
  | .ok (moves, s) =>
    let names := moves.filterMap fun id => (m.circuit.component? id).bind Component.name?
    .ok (names.map (fun name => "robot plays " ++ l.showAtom name) ++
      ["robot scores " ++ showScore (m.goal? s role)])

/-- What the demonstration prints, line by line: the circuit if it is asked for, and the moves and
the score. -/
def lines (drawing : Bool) : Except String (List String) :=
  match Text.readInto rules .initial with
  | .error _ => .error "the description cannot be read"
  | .ok (φs, l) =>
    let game := Game.ofRules φs
    match game.roles with
    | [] => .error "the description has no role"
    | role :: _ =>
      match game.compile .standard l with
      | (.error e, _) => .error e.message
      | (.ok c, l) =>
        match Machine.ofCircuit c with
        | .error e => .error e.message
        | .ok m =>
          match report l m role with
          | .error e => .error e.message
          | .ok played => .ok ((if drawing then [c.draw l] else []) ++ played)

/-- What the demonstration prints for the given arguments. -/
def output (args : List String) : Except String String :=
  match lines (args.contains "--dot") with
  | .error e => .error e
  | .ok ls => .ok (String.join (ls.map (· ++ "\n")))

end GameCircuit.Demo
