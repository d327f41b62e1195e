import PatternAutomata.Search.Progress

/-!
# Running a search

The machine turns until it halts, which it does on every automaton and every text.
-/
namespace PatternAutomata.Matcher

/-- Turns the machine until it halts. -/
def run (m : Matcher) (text : String) (machine : Machine) : Except Fault (Option Path) :=
  match _h : m.turn text machine with
  | .halted result => result
  | .next machine' => run m text machine'
termination_by m.weight text machine
decreasing_by exact weight_lt_of_turn _h

theorem run_of_halted {m : Matcher} {text : String} {machine : Machine}
    {result : Except Fault (Option Path)} (h : m.turn text machine = .halted result) :
    m.run text machine = result := by
  rw [run]
  split <;> simp_all

theorem run_of_next {m : Matcher} {text : String} {machine machine' : Machine}
    (h : m.turn text machine = .next machine') : m.run text machine = m.run text machine' := by
  rw [run]
  split <;> simp_all

/-- The accepted path that begins at `start`, if there is one. -/
def exec (m : Matcher) (text : String) (start : Nat) : Except Fault (Option Path) := do
  m.run text (← m.machineAt start)

end PatternAutomata.Matcher
