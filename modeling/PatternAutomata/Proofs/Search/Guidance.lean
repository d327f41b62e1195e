import PatternAutomata.Proofs.Search.Acceptance

/-!
# Which run a search finds

A search marks a visit when it becomes pending, not when it is taken up. So a visit that waits
behind others can no longer be entered through them, and the run that the order of the edges
prefers may be cut off. A run is guided if nothing of the kind happens to it: no step of it enters
what is marked, and whatever is preferred to a step fails. A search finds the guided run.

## Main statement

* `Automaton.exec_of_guided` — a search finds the guided run if there is one.
-/
namespace PatternAutomata.Automaton

variable {a : Automaton} {text : String}

/-- The visits `run` follow `v` and accept. Each of them is entered for the first time, with
`seen` the visits marked up to then, and no edge before the one taken leads to an accepting run
that keeps out of the marked visits. -/
inductive Guided (a : Automaton) (text : String) : Set Visit → Visit → List Visit → Prop
  | final {seen : Set Visit} {v : Visit} : a.isFinal v.state = true → Guided a text seen v []
  | step {seen : Set Visit} {v w : Visit} {run : List Visit} {before after : List Edge} {e : Edge} :
      a.isFinal v.state = false → a.edgesOf v.state = before ++ e :: after →
      e.next? a.flags text v = some w →
      (e.label.isEpsilon = true → w ∉ seen ∧ w ∉ marks a.flags text after v) →
      (∀ f ∈ before, ∀ u, f.next? a.flags text v = some u →
        f.label.isEpsilon = true ∧ u ∈ seen ∨
          ¬a.AcceptsOutside text (seen ∪ marks a.flags text (e :: after) v) u) →
      Guided a text (seen ∪ marks a.flags text (e :: after) v) w run →
      Guided a text seen v (w :: run)

theorem Guided.acceptsOutside {seen : Set Visit} {v : Visit} {run : List Visit}
    (h : a.Guided text seen v run) : a.AcceptsOutside text seen v := by
  induction h with
  | final hf => exact .final hf
  | step _ hsplit hw hn _ _ ih =>
    refine .step _ ?_ hw (fun he => (hn he).1) (ih.mono Set.subset_union_left)
    rw [hsplit]
    exact List.mem_append_right _ List.mem_cons_self

/-- Marking visits from which nothing accepts does not disturb a guided run. -/
theorem Guided.widen {seen seen' : Set Visit} {v : Visit} {run : List Visit}
    (h : a.Guided text seen v run) (hs : seen ⊆ seen')
    (hdead : ∀ u ∈ seen', u ∉ seen → ¬a.AcceptsOutside text seen u) :
    a.Guided text seen' v run := by
  induction h generalizing seen' with
  | final hf => exact .final hf
  | @step seen v w run before after e hf hsplit hw hn hpre hrun ih =>
    have hsub : seen ∪ marks a.flags text (e :: after) v ⊆
        seen' ∪ marks a.flags text (e :: after) v := Set.union_subset_union_left _ hs
    refine .step hf hsplit hw (fun he => ⟨fun hmem => ?_, (hn he).2⟩) (fun f hfm u hu => ?_)
      (ih hsub fun u hu hnu => ?_)
    · exact hdead w hmem (hn he).1 (hrun.acceptsOutside.mono Set.subset_union_left)
    · rcases hpre f hfm u hu with ⟨he, hm⟩ | hacc
      · exact .inl ⟨he, hs hm⟩
      · exact .inr fun h => hacc (h.mono hsub)
    · have hu' := hu.resolve_right fun hm => hnu (.inr hm)
      exact fun h => hdead u hu' (fun hm => hnu (.inl hm)) (h.mono Set.subset_union_left)

/-- Somewhere among the pending paths stands the beginning of the run `target`, which is guided
from there on, and no path before it leads to anything. -/
def OnCourse (a : Automaton) (text : String) (target : List Visit) (machine : Machine) : Prop :=
  ∃ above q below run, machine.pending = above ++ q :: below ∧ q.visits ++ run = target ∧
    a.Guided text machine.seen q.last run ∧
    ∀ p ∈ above, ¬a.AcceptsOutside text machine.seen p.last

section Turn

variable {target : List Visit} {machine : Machine} {p q : Path} {above below rest : List Path}
  {run : List Visit}

/-- A turn that takes up a path before the right one adds only paths that lead to nothing. -/
theorem onCourse_of_above (hc : a.Closed) (hr : a.Ready machine)
    (htarget : q.visits ++ run = target) (hrun : a.Guided text machine.seen q.last run)
    (habove : ∀ r ∈ p :: above, ¬a.AcceptsOutside text machine.seen r.last) :
    a.OnCourse text target (a.afterTurn text machine p (above ++ q :: below)) := by
  have hp := habove p List.mem_cons_self
  have hseen : (a.afterTurn text machine p (above ++ q :: below)).seen =
      machine.seen ∪ marks a.flags text (a.edgesOf p.last.state) p.last := seen_afterTurn hc hr
  have hsub : machine.seen ⊆ (a.afterTurn text machine p (above ++ q :: below)).seen :=
    hseen ▸ Set.subset_union_left
  have hdead {e : Edge} {u : Visit} (he : e ∈ a.edgesOf p.last.state)
      (hu : e.next? a.flags text p.last = some u)
      (hn : e.label.isEpsilon = true → u ∉ machine.seen) :
      ¬a.AcceptsOutside text machine.seen u := fun h => hp (.step e he hu hn h)
  obtain ⟨front, hfront, hmem⟩ := pending_afterTurn text p (above ++ q :: below) hc hr
  refine ⟨front ++ above, q, below, run, by rw [hfront, List.append_assoc], htarget, ?_, ?_⟩
  · apply hrun.widen hsub
    intro u hu hnu
    rw [hseen] at hu
    obtain ⟨e, he, -, hnext⟩ := hu.resolve_left hnu
    exact hdead he hnext fun _ => hnu
  · intro r hmr h
    rcases List.mem_append.1 hmr with hmr | hmr
    · obtain ⟨e, he, w, rfl, hw, hn⟩ := hmem r hmr
      exact hdead he hw hn (h.mono hsub)
    · exact habove r (List.mem_cons_of_mem _ hmr) (h.mono hsub)

/-- A turn that takes up the right path makes it one step longer. The edges before the one to be
taken add paths in front of it that lead to nothing. -/
theorem onCourse_of_first (hc : a.Closed) (hr : a.Ready machine)
    (htarget : q.visits ++ run = target) (hrun : a.Guided text machine.seen q.last run)
    (hf : a.isFinal q.last.state = false) :
    a.OnCourse text target (a.afterTurn text machine q rest) := by
  cases hrun with
  | final hf' => rw [hf] at hf'; cases hf'
  | @step _ _ w run before after e _ hsplit hw hn hpre hrun =>
    have ht : ∀ f ∈ before ++ e :: after, f.target < (machine.takeUp rest).visited.size :=
      fun f hf => hr.target_lt hc f (hsplit ▸ hf)
    have htake : (machine.takeUp rest).seen = machine.seen := rfl
    let explore := Machine.explore a.flags text q
    let back := after.foldr explore (machine.takeUp rest)
    let here := explore e back
    have hback : back.seen = machine.seen ∪ marks a.flags text after q.last :=
      Machine.seen_foldr_explore a.flags text q (machine.takeUp rest) after fun f hf =>
        ht f (List.mem_append_right _ (List.mem_cons_of_mem _ hf))
    have hhere : here.seen = machine.seen ∪ marks a.flags text (e :: after) q.last :=
      Machine.seen_foldr_explore a.flags text q (machine.takeUp rest) (e :: after) fun f hf =>
        ht f (List.mem_append_right _ hf)
    have hturn : a.afterTurn text machine q rest = before.foldr explore here := by
      rw [afterTurn, hsplit, List.foldr_append]
      rfl
    have htb : ∀ f ∈ before, f.target < here.visited.size := fun f hf => by
      simpa [here, back, explore] using ht f (List.mem_append_left _ hf)
    obtain ⟨waiting, hwaiting, -⟩ := Machine.exists_pending_foldr a.flags text q
      (machine.takeUp rest) after fun f hf =>
        ht f (List.mem_append_right _ (List.mem_cons_of_mem _ hf))
    obtain ⟨front, hfront, hmem⟩ := Machine.exists_pending_foldr a.flags text q here before htb
    have hpending : here.pending = q.extend w :: (waiting ++ rest) := by
      have hnew : e.label.isEpsilon = true → w ∉ back.seen := fun he => by
        rw [hback]
        rintro (hm | hm)
        · exact (hn he).1 hm
        · exact (hn he).2 hm
      simp only [here, explore, Machine.explore_of_new hw hnew]
      exact congrArg _ hwaiting
    have hseen : (a.afterTurn text machine q rest).seen =
        here.seen ∪ marks a.flags text before q.last := by
      rw [hturn]
      exact Machine.seen_foldr_explore a.flags text q here before htb
    have hsub : here.seen ⊆ (a.afterTurn text machine q rest).seen :=
      hseen ▸ Set.subset_union_left
    have hdead {f : Edge} {u : Visit} (hfm : f ∈ before)
        (hu : f.next? a.flags text q.last = some u)
        (hnu : f.label.isEpsilon = true → u ∉ here.seen) :
        ¬a.AcceptsOutside text here.seen u := by
      rcases hpre f hfm u hu with ⟨he, hm⟩ | h
      · exact absurd (hhere ▸ .inl hm) (hnu he)
      · exact hhere ▸ h
    refine ⟨front, q.extend w, waiting ++ rest, run, ?_, by simp [← htarget], ?_, ?_⟩
    · rw [hturn, hfront, hpending]
    · apply Guided.widen (hhere ▸ hrun) hsub
      intro u hu hnu
      rw [hseen] at hu
      obtain ⟨f, hfm, -, hnext⟩ := hu.resolve_left hnu
      exact hdead hfm hnext fun _ => hnu
    · intro r hmr h
      obtain ⟨f, hfm, u, rfl, hu, hnu⟩ := hmem r hmr
      exact hdead hfm hu hnu (h.mono hsub)

end Turn

/-- A search without limits finds the guided run. -/
theorem exec_of_guided (hc : a.Closed) {start : Nat} {run : List Visit}
    (h : a.Guided text {⟨0, start⟩} ⟨0, start⟩ run) :
    ∃ p, Matcher.exec ⟨a, {}⟩ text start = .ok (some p) ∧ p.visits = ⟨0, start⟩ :: run := by
  have hexec : ∃ result, Matcher.exec ⟨a, {}⟩ text start = .ok result ∧
      ∃ p, result = some p ∧ p.visits = ⟨0, start⟩ :: run := by
    refine exec_induction hc (a.OnCourse text (⟨0, start⟩ :: run)) start ?init ?reject ?accept
      ?turn
    case init =>
      refine ⟨[], ⟨⟨0, start⟩, []⟩, [], run, rfl, rfl, ?_, by simp⟩
      rw [seen_machineAt hc]
      exact h
    case reject =>
      rintro machine ⟨above, q, below, run, hpending, -⟩ hp
      rw [hp] at hpending
      cases above <;> cases hpending
    case accept =>
      rintro machine p rest ⟨above, q, below, run, hpending, htarget, hrun, habove⟩ hp hf
      refine ⟨p, rfl, ?_⟩
      rw [hp] at hpending
      cases above with
      | cons r above =>
        obtain ⟨rfl, -⟩ := List.cons.inj hpending
        exact absurd (.final hf) (habove p List.mem_cons_self)
      | nil =>
        obtain ⟨rfl, -⟩ := List.cons.inj hpending
        cases hrun with
        | final => simpa using htarget
        | step hf' => rw [hf] at hf'; cases hf'
    case turn =>
      rintro machine p rest hr ⟨above, q, below, run, hpending, htarget, hrun, habove⟩ hp hf
      rw [hp] at hpending
      cases above with
      | cons r above =>
        obtain ⟨rfl, rfl⟩ := List.cons.inj hpending
        exact onCourse_of_above hc hr htarget hrun habove
      | nil =>
        obtain ⟨rfl, rfl⟩ := List.cons.inj hpending
        exact onCourse_of_first hc hr htarget hrun hf
  obtain ⟨-, hresult, p, rfl, hp⟩ := hexec
  exact ⟨p, hresult, hp⟩

end PatternAutomata.Automaton
