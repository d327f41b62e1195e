import PatternAutomata.Proofs.Search.Guidance

/-!
# Guided runs piece by piece

A guided run is put together from pieces. What a piece needs to know about the rest of the run is
which visits are marked when the piece begins, and what it has to tell is which visits stay marked
when it ends: those of the edges taken, and those of the edges after them, which wait to be tried.

## Main definitions

* `Automaton.kept` — the visits that stay marked along a run.
* `Automaton.Leads` — a guided run can be continued backwards along a run.
-/
namespace PatternAutomata.Automaton

variable {a : Automaton} {text : String} {R R' : Set Visit} {u v w x : Visit}
  {run run' : List Visit} {after : List Edge} {e : Edge}

/-- The visits that stay marked along a run: at each step those of the edge taken and of the edges
after it. -/
def kept (a : Automaton) (text : String) : Visit → List Visit → Set Visit
  | _, [] => ∅
  | v, w :: run =>
    marks a.flags text
      ((a.edgesOf v.state).dropWhile fun e => e.next? a.flags text v != some w) v ∪
      kept a text w run

theorem kept_cons (before : List Edge) (hsplit : a.edgesOf v.state = before ++ e :: after)
    (hw : e.next? a.flags text v = some w)
    (hbefore : ∀ f ∈ before, f.next? a.flags text v ≠ some w) :
    a.kept text v (w :: run) = marks a.flags text (e :: after) v ∪ a.kept text w run := by
  have hdrop : (a.edgesOf v.state).dropWhile (fun e => e.next? a.flags text v != some w) =
      e :: after := by
    rw [hsplit, List.dropWhile_append_of_pos (by simpa using hbefore)]
    simp [hw]
  rw [kept, hdrop]

theorem kept_append : a.kept text v (run ++ run') =
    a.kept text v run ∪ a.kept text (run.getLastD v) run' := by
  induction run generalizing v with
  | nil => simp [kept]
  | cons w run ih => rw [List.cons_append, kept, kept, ih, Set.union_assoc, List.getLastD_cons]

theorem kept_cons_eq : a.kept text v (w :: run) = a.kept text v [w] ∪ a.kept text w run := by
  rw [kept, kept, kept, Set.union_empty]

/-- A visit between two others. -/
theorem kept_wrap : a.kept text u (v :: (run ++ [w])) =
    a.kept text u [v] ∪ (a.kept text v run ∪ a.kept text (run.getLastD v) [w]) := by
  rw [kept_cons_eq, kept_append]

theorem mem_edges_of_mem_kept (h : u ∈ a.kept text v [w]) :
    u.offset = v.offset ∧ ∃ e ∈ a.edgesOf v.state, u.state = e.target := by
  rw [kept, kept, Set.union_empty] at h
  obtain ⟨e, he, hi, hnext⟩ := h
  exact ⟨Edge.offset_eq_of_next? hi hnext, e, List.dropWhile_subset _ he,
    (Edge.next?_eq_some_iff.1 hnext).1⟩

/-- What stays marked along a run was marked at the offset of one of its visits. -/
theorem exists_offset_of_mem_kept (h : u ∈ a.kept text v run) :
    ∃ w ∈ v :: run, u.offset = w.offset := by
  induction run generalizing v with
  | nil => cases h
  | cons w run ih =>
    rcases h with ⟨e, -, hi, hnext⟩ | h
    · exact ⟨v, List.mem_cons_self, Edge.offset_eq_of_next? hi hnext⟩
    · obtain ⟨x, hx, hoffset⟩ := ih h
      exact ⟨x, List.mem_cons_of_mem _ hx, hoffset⟩

/-- Whatever is marked already, as long as `R` is among it and no visit of `run` is, a guided run
from `w` can be continued backwards along `run` to `v`. -/
def Leads (a : Automaton) (text : String) (R : Set Visit) (v : Visit) (run : List Visit)
    (w : Visit) : Prop :=
  ∀ (seen : Set Visit) (rest : List Visit), R ⊆ seen → (∀ u ∈ run, u ∉ seen) →
    a.Guided text (seen ∪ a.kept text v run) w rest → a.Guided text seen v (run ++ rest)

theorem Leads.nil : a.Leads text R v [] v := fun seen rest _ _ h => by
  rwa [kept, Set.union_empty] at h

/-- Pieces are put together if the second enters nothing that stays marked along the first. -/
theorem Leads.append (h : a.Leads text R v run w) (h' : a.Leads text R' w run' x)
    (hlast : run.getLastD v = w) (hR : R' ⊆ R ∪ a.kept text v run)
    (hfresh : ∀ u ∈ run', u ∉ a.kept text v run) : a.Leads text R v (run ++ run') x := by
  intro seen rest hsub hnew hrest
  rw [List.append_assoc]
  apply h seen _ hsub (fun u hu => hnew u (List.mem_append_left _ hu))
  refine h' _ rest (hR.trans (Set.union_subset_union_left _ hsub)) (fun u hu => ?_) ?_
  · rintro (hm | hm)
    · exact hnew u (List.mem_append_right _ hu) hm
    · exact hfresh u hu hm
  · rwa [kept_append, hlast, ← Set.union_assoc] at hrest

/-- A single step, whose preferred edges lead to something that is marked or does not accept. -/
theorem Leads.step (before : List Edge) (hf : a.isFinal v.state = false)
    (hsplit : a.edgesOf v.state = before ++ e :: after) (hw : e.next? a.flags text v = some w)
    (hne : ∀ f ∈ before, f.next? a.flags text v ≠ some w)
    (hafter : w ∉ marks a.flags text after v)
    (hbefore : ∀ f ∈ before, ∀ u, f.next? a.flags text v = some u →
      f.label.isEpsilon = true ∧ u ∈ R ∨
        ¬a.AcceptsOutside text (R ∪ marks a.flags text (e :: after) v) u) :
    a.Leads text R v [w] w := by
  intro seen rest hsub hnew hrest
  rw [kept_cons before hsplit hw hne, kept, Set.union_empty] at hrest
  refine .step hf hsplit hw (fun _ => ⟨hnew w List.mem_cons_self, hafter⟩) (fun f hfm u hu => ?_)
    hrest
  rcases hbefore f hfm u hu with ⟨he, hm⟩ | hacc
  · exact .inl ⟨he, hsub hm⟩
  · exact .inr fun h => hacc (h.mono (Set.union_subset_union_left _ hsub))

section Free

variable {y z : Nat}

theorem marks_free (flags : Flags) (target : Nat) (v : Visit) :
    marks flags text [.free target] v = {⟨target, v.offset⟩} := by
  ext u
  simp only [marks, Set.mem_ofPred_eq, List.mem_singleton, exists_eq_left, Edge.isEpsilon_free,
    true_and, Edge.next?_free, Option.some.injEq, Set.mem_singleton_iff]
  exact eq_comm

theorem marks_free_pair (flags : Flags) (y z : Nat) (v : Visit) :
    marks flags text [.free y, .free z] v = {⟨y, v.offset⟩, ⟨z, v.offset⟩} := by
  ext u
  simp only [marks, Set.mem_ofPred_eq, List.mem_cons, List.not_mem_nil, or_false, exists_eq_or_imp,
    exists_eq_left, Edge.isEpsilon_free, true_and, Edge.next?_free, Option.some.injEq,
    Set.mem_insert_iff, Set.mem_singleton_iff]
  exact or_congr eq_comm eq_comm

theorem kept_only (h : a.edgesOf v.state = [.free y]) :
    a.kept text v [⟨y, v.offset⟩] = {⟨y, v.offset⟩} := by
  rw [kept_cons [] h (Edge.next?_free ..) nofun, kept, Set.union_empty, marks_free]

theorem kept_first (h : a.edgesOf v.state = [.free y, .free z]) :
    a.kept text v [⟨y, v.offset⟩] = {⟨y, v.offset⟩, ⟨z, v.offset⟩} := by
  rw [kept_cons [] h (Edge.next?_free ..) nofun, kept, Set.union_empty, marks_free_pair]

theorem kept_second (h : a.edgesOf v.state = [.free y, .free z]) (hne : y ≠ z) :
    a.kept text v [⟨z, v.offset⟩] = {⟨z, v.offset⟩} := by
  rw [kept_cons [.free y] h (Edge.next?_free ..) (by simpa using hne), kept, Set.union_empty,
    marks_free]

theorem Leads.only (hend : a.FinalsEnd) (h : a.edgesOf v.state = [.free y]) :
    a.Leads text R v [⟨y, v.offset⟩] ⟨y, v.offset⟩ :=
  .step [] (isFinal_eq_false hend (h ▸ List.mem_singleton_self _)) h rfl nofun
    (by simp [marks]) nofun

theorem Leads.first (hend : a.FinalsEnd) (h : a.edgesOf v.state = [.free y, .free z])
    (hne : y ≠ z) : a.Leads text R v [⟨y, v.offset⟩] ⟨y, v.offset⟩ :=
  .step [] (isFinal_eq_false hend (h ▸ List.mem_cons_self)) h rfl nofun
    (by simpa [marks_free] using hne) nofun

theorem Leads.second (hend : a.FinalsEnd) (h : a.edgesOf v.state = [.free y, .free z])
    (hne : y ≠ z) (hy : ⟨y, v.offset⟩ ∈ R ∨
      ¬a.AcceptsOutside text (R ∪ {⟨z, v.offset⟩}) ⟨y, v.offset⟩) :
    a.Leads text R v [⟨z, v.offset⟩] ⟨z, v.offset⟩ := by
  refine .step [.free y] (isFinal_eq_false hend (h ▸ List.mem_cons_self)) h rfl
    (by simpa using hne) (by simp [marks]) fun f hf u hu => ?_
  obtain rfl := List.mem_singleton.1 hf
  obtain rfl := Option.some.inj hu
  rw [marks_free]
  exact hy.imp_left fun hy => ⟨rfl, hy⟩

/-- Of several edges to different states one is taken if nothing accepts from the targets of those
before it. -/
theorem Leads.choose {before after : List Nat} (hend : a.FinalsEnd)
    (h : a.edgesOf v.state = before.map .free ++ .free y :: after.map .free)
    (hnodup : (before ++ y :: after).Nodup)
    (hbefore : ∀ x ∈ before, ¬a.Accepts text ⟨x, v.offset⟩) :
    a.Leads text R v [⟨y, v.offset⟩] ⟨y, v.offset⟩ := by
  obtain ⟨-, hafter, hdisjoint⟩ := List.nodup_append.1 hnodup
  refine .step (before.map .free)
    (isFinal_eq_false hend (h ▸ List.mem_append_right _ List.mem_cons_self)) h rfl ?_ ?_ ?_
  · intro f hf heq
    obtain ⟨x, hx, rfl⟩ := List.mem_map.1 hf
    have hstate : x = y := congrArg Visit.state (Option.some.inj heq)
    exact hdisjoint x hx y List.mem_cons_self hstate
  · rintro ⟨f, hf, -, heq⟩
    obtain ⟨x, hx, rfl⟩ := List.mem_map.1 hf
    have hstate : x = y := congrArg Visit.state (Option.some.inj heq)
    exact (List.nodup_cons.1 hafter).1 (hstate ▸ hx)
  · intro f hf u hu
    obtain ⟨x, hx, rfl⟩ := List.mem_map.1 hf
    obtain rfl := Option.some.inj hu
    exact .inr fun hacc => hbefore x hx hacc.accepts

end Free

end PatternAutomata.Automaton
