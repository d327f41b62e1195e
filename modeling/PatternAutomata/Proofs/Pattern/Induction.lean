import PatternAutomata.Pattern.Construction

/-!
# Induction on patterns

Patterns are nested in lists. A statement about a pattern that holds of all members of a list is
proved by assuming it for each of them.
-/
namespace PatternAutomata.Pattern

@[elab_as_elim]
theorem induct {motive : Pattern → Prop}
    (alternation : ∀ branches, (∀ p ∈ branches, motive p) → motive (.alternation branches))
    (sequence : ∀ items, (∀ p ∈ items, motive p) → motive (.sequence items))
    (repeated : ∀ body times greedy, motive body → motive (.repeated body times greedy))
    (group : ∀ capture body, motive body → motive (.group capture body))
    (anchor : ∀ a, motive (.anchor a)) (char : ∀ c, motive (.char c))
    (charClass : ∀ k, motive (.charClass k))
    (set : ∀ negated items, motive (.set negated items)) (p : Pattern) : motive p := by
  refine @Pattern.rec motive (fun ps => ∀ p ∈ ps, motive p) alternation sequence repeated group
    anchor char charClass set ?nil ?cons p
  case nil => exact nofun
  case cons => exact fun p ps hp hps => List.forall_mem_cons.2 ⟨hp, hps⟩

/-- The members of a list are reached by their indices. -/
theorem flatMap_eq_flatMap_range {α β : Type} (l : List α) (f : α → List β) :
    l.flatMap f = (List.range l.length).flatMap fun i => (l[i]?.map f).getD [] := by
  induction l with
  | nil => rfl
  | cons x l ih =>
    rw [List.flatMap_cons, ih, List.length_cons, List.range_succ_eq_map, List.flatMap_cons,
      List.flatMap_map]
    rfl

end PatternAutomata.Pattern
