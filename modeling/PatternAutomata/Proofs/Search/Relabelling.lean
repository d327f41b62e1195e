import PatternAutomata.Proofs.Search.Preference

/-!
# Runs through equal parts of two automata

Two automata may have a part in common, up to the ids of its states. As long as a run stays in that
part, it is a run of the other automaton as well. A guided run stays guided there, if the same
visits are marked and what lies behind the part accepts in the one only if it does in the other.

## Main definitions

* `Automaton.Mirrors` — a part of one automaton is found in another one.
* `Tallies` — the same visits are marked.

## Main statements

* `Automaton.Mirrors.acceptsOutside` — what accepts in the copy accepts in the original.
* `Automaton.Mirrors.carry` — a guided run through the part is one through its copy.
* `Automaton.Mirrors.guided_append` — a guided run that ends with the part goes on in the copy.
-/
namespace PatternAutomata

/-- The visit, with another id for its state. -/
def Visit.relabel (f : Nat → Nat) (v : Visit) : Visit :=
  ⟨f v.state, v.offset⟩

def Edge.relabel (f : Nat → Nat) (e : Edge) : Edge :=
  ⟨e.label, f e.target⟩

@[simp] theorem Visit.state_relabel (f : Nat → Nat) (v : Visit) :
    (v.relabel f).state = f v.state := rfl

@[simp] theorem Visit.offset_relabel (f : Nat → Nat) (v : Visit) :
    (v.relabel f).offset = v.offset := rfl

@[simp] theorem Edge.relabel_free (f : Nat → Nat) (target : Nat) :
    (Edge.free target).relabel f = .free (f target) := rfl

theorem Edge.next?_relabel (f : Nat → Nat) (e : Edge) (flags : Flags) (text : String) (v : Visit) :
    (e.relabel f).next? flags text (v.relabel f) =
      (e.next? flags text v).map (Visit.relabel f) := by
  simp only [next?, Option.map_map]
  rfl

theorem marks_relabel (f : Nat → Nat) (flags : Flags) (text : String) (edges : List Edge)
    (v : Visit) : marks flags text (edges.map (.relabel f)) (v.relabel f) =
      Visit.relabel f '' marks flags text edges v := by
  ext u
  simp only [marks, List.mem_map, Set.mem_ofPred_eq, Set.mem_image]
  constructor
  · rintro ⟨_, ⟨e, he, rfl⟩, hi, hnext⟩
    rw [Edge.next?_relabel, Option.map_eq_some_iff] at hnext
    obtain ⟨w, hw, rfl⟩ := hnext
    exact ⟨w, ⟨e, he, hi, hw⟩, rfl⟩
  · rintro ⟨w, ⟨e, he, hi, hw⟩, rfl⟩
    exact ⟨_, ⟨e, he, rfl⟩, hi, by rw [Edge.next?_relabel, hw]; rfl⟩

/-- At the states in `D`, the same visits are in both sets. -/
def Tallies (f : Nat → Nat) (D : Set Nat) (seen seen' : Set Visit) : Prop :=
  ∀ u : Visit, u.state ∈ D → (u ∈ seen ↔ u.relabel f ∈ seen')

variable {f : Nat → Nat} {D S : Set Nat} {seen seen' marked : Set Visit} {u v w : Visit}
  {run run' : List Visit} {text : String}

theorem Visit.relabel_inj (hf : Set.InjOn f D) (hu : u.state ∈ D) (hv : v.state ∈ D)
    (h : u.relabel f = v.relabel f) : u = v := by
  obtain ⟨id, offset⟩ := u
  obtain ⟨id', offset'⟩ := v
  obtain ⟨hstate, hoffset⟩ := Visit.mk.inj h
  obtain rfl : id = id' := hf hu hv hstate
  obtain rfl : offset = offset' := hoffset
  rfl

theorem Tallies.notMem (h : Tallies f D seen seen') (hu : u.state ∈ D) (hn : u ∉ seen) :
    u.relabel f ∉ seen' :=
  fun hm => hn ((h u hu).2 hm)

theorem Tallies.union (h : Tallies f D seen seen') (hf : Set.InjOn f D)
    (hmarked : ∀ u ∈ marked, u.state ∈ D) :
    Tallies f D (seen ∪ marked) (seen' ∪ Visit.relabel f '' marked) := by
  intro u hu
  refine or_congr (h u hu) ⟨fun hm => ⟨u, hm, rfl⟩, ?_⟩
  rintro ⟨v, hv, heq⟩
  exact Visit.relabel_inj hf (hmarked v hv) hu heq ▸ hv

theorem Tallies.insert (h : Tallies f D seen seen') (hf : Set.InjOn f D) (hu : u.state ∈ D) :
    Tallies f D (insert u seen) (insert (u.relabel f) seen') := by
  have hunion := h.union hf fun v (hv : v ∈ ({u} : Set Visit)) => Set.mem_singleton_iff.1 hv ▸ hu
  rwa [Set.image_singleton, Set.union_singleton, Set.union_singleton] at hunion

theorem Visit.relabel_of_eq {id id' offset : Nat} (h : f id = id') :
    relabel f ⟨id, offset⟩ = ⟨id', offset⟩ :=
  congrArg (Visit.mk · offset) h

theorem Visit.relabel_zero (k offset : Nat) :
    relabel (· + k) ⟨0, offset⟩ = ⟨k, offset⟩ :=
  relabel_of_eq (Nat.zero_add k)

theorem Visit.getLastD_map_relabel (f : Nat → Nat) (run : List Visit) (v : Visit) :
    (run.map (relabel f)).getLastD (v.relabel f) = (run.getLastD v).relabel f := by
  induction run generalizing v with
  | nil => rfl
  | cons w run ih => rw [List.map_cons, List.getLastD_cons, List.getLastD_cons, ih]

theorem Visit.offset_getLastD_map_relabel (f : Nat → Nat) (run : List Visit)
    (h : w.offset = v.offset) :
    ((run.map (relabel f)).getLastD w).offset = (run.getLastD v).offset := by
  cases run with
  | nil => exact h
  | cons u run =>
    rw [List.map_cons, List.getLastD_cons, List.getLastD_cons, getLastD_map_relabel,
      offset_relabel]

namespace Automaton

variable {a b : Automaton}

/-- The states in `S` have the same edges in `a` as in `b`, with ids changed by `f`, and the only
way out of `S` is to `out`. At `out` and at the other states in `D`, which lie behind it, the
automaton `b` accepts, or `a` has no edges that `b` has not. -/
structure Mirrors (b a : Automaton) (f : Nat → Nat) (S : Set Nat) (out : Nat) (D : Set Nat) :
    Prop where
  flags_eq : a.flags = b.flags
  injOn : Set.InjOn f D
  subset : insert out S ⊆ D
  out_notMem : out ∉ S
  edges_eq : ∀ id ∈ S, a.edgesOf (f id) = (b.edgesOf id).map (.relabel f)
  not_final : ∀ id ∈ S, b.isFinal id = false ∧ a.isFinal (f id) = false
  target_mem : ∀ id ∈ S, ∀ e ∈ b.edgesOf id, e.target ∈ insert out S
  covered : ∀ id ∈ D, id ∉ S → b.isFinal id = true ∨ a.isFinal (f id) = false ∧
    ∀ e' ∈ a.edgesOf (f id), ∃ e ∈ b.edgesOf id, e.target ∈ D ∧ e' = e.relabel f

namespace Mirrors

variable {out : Nat} (hm : b.Mirrors a f S out D)

include hm

/-- Where the original does not accept, the copy does not, and has no edges that the original has
not. -/
theorem exists_edge {id : Nat} (hid : id ∈ D) (hf : b.isFinal id = false) :
    a.isFinal (f id) = false ∧
      ∀ e' ∈ a.edgesOf (f id), ∃ e ∈ b.edgesOf id, e.target ∈ D ∧ e' = e.relabel f := by
  by_cases hS : id ∈ S
  · refine ⟨(hm.not_final _ hS).2, fun e' he' => ?_⟩
    rw [hm.edges_eq _ hS] at he'
    obtain ⟨e, he, rfl⟩ := List.mem_map.1 he'
    exact ⟨e, he, hm.subset (hm.target_mem _ hS e he), rfl⟩
  · exact (hm.covered _ hid hS).resolve_left (by simp [hf])

/-- A step from the copy is one from the original, then. -/
theorem exists_next (hv : v.state ∈ D) (hf : b.isFinal v.state = false) {e' : Edge} {w' : Visit}
    (he' : e' ∈ a.edgesOf (f v.state)) (hnext : e'.next? a.flags text (v.relabel f) = some w') :
    ∃ e ∈ b.edgesOf v.state, ∃ w, e' = e.relabel f ∧ w' = w.relabel f ∧ w.state ∈ D ∧
      e.next? b.flags text v = some w := by
  obtain ⟨e, he, htarget, rfl⟩ := (hm.exists_edge hv hf).2 e' he'
  rw [hm.flags_eq, Edge.next?_relabel, Option.map_eq_some_iff] at hnext
  obtain ⟨w, hw, rfl⟩ := hnext
  exact ⟨e, he, w, rfl, rfl, (Edge.next?_eq_some_iff.1 hw).1 ▸ htarget, hw⟩

/-- What accepts in the copy, outside the marked visits, accepts in the original. -/
theorem acceptsOutside (ht : Tallies f D seen seen') (hv : v.state ∈ D)
    (h : a.AcceptsOutside text seen' (v.relabel f)) : b.AcceptsOutside text seen v := by
  generalize hv' : v.relabel f = v' at h
  induction h generalizing v with
  | final hf' =>
    subst hv'
    by_contra hnot
    have hf : b.isFinal v.state = false := Bool.eq_false_iff.2 fun hf => hnot (.final hf)
    rw [Visit.state_relabel, (hm.exists_edge hv hf).1] at hf'
    cases hf'
  | @step v' w' e' he' hw' hn _ ih =>
    subst hv'
    cases hf : b.isFinal v.state with
    | true => exact .final hf
    | false =>
      obtain ⟨e, he, w, rfl, rfl, hw, hnext⟩ := hm.exists_next hv hf he' hw'
      exact .step e he hnext (fun hi hmem => hn hi ((ht w hw).1 hmem)) (ih hw rfl)

/-- An accepting run of the copy begins with one of the original, up to where the part ends. -/
theorem exists_accepting (hv : v.state ∈ insert out S) (h : a.Accepting text (v.relabel f) run') :
    ∃ run rest, run' = run.map (Visit.relabel f) ++ rest ∧ (run.getLastD v).state = out ∧
      a.Accepting text ((run.getLastD v).relabel f) rest ∧
      ∀ more, b.Accepting text (run.getLastD v) more → b.Accepting text v (run ++ more) := by
  induction run' generalizing v with
  | nil =>
    rcases hv with hout | hS
    · exact ⟨[], [], rfl, hout, h, fun _ h => h⟩
    · cases h with
      | final hf =>
        rw [Visit.state_relabel, (hm.not_final _ hS).2] at hf
        cases hf
  | cons w' run' ih =>
    rcases hv with hout | hS
    · exact ⟨[], w' :: run', rfl, hout, h, fun _ h => h⟩
    · obtain hf | ⟨⟨e', he', hw'⟩, h⟩ := h
      rw [Visit.state_relabel, hm.edges_eq _ hS] at he'
      obtain ⟨e, he, rfl⟩ := List.mem_map.1 he'
      rw [hm.flags_eq, Edge.next?_relabel, Option.map_eq_some_iff] at hw'
      obtain ⟨w, hnext, rfl⟩ := hw'
      have hw : w.state ∈ insert out S :=
        (Edge.next?_eq_some_iff.1 hnext).1 ▸ hm.target_mem _ hS e he
      obtain ⟨run, rest, rfl, hlast, hacc, hmore⟩ := ih hw h
      refine ⟨w :: run, rest, rfl, ?_⟩
      rw [List.getLastD_cons]
      exact ⟨hlast, hacc, fun more hb => .step ⟨e, he, hnext⟩ (hmore more hb)⟩

/-- A run up to where the part ends is one of the copy. -/
theorem accepting_append (hend : b.FinalsEnd) (hfinal : b.isFinal out = true)
    (hv : v.state ∈ insert out S) (h : b.Accepting text v run)
    (hrest : a.Accepting text ((run.getLastD v).relabel f) run') :
    a.Accepting text (v.relabel f) (run.map (Visit.relabel f) ++ run') := by
  induction h with
  | final => exact hrest
  | @step v w run hs _ ih =>
    obtain ⟨e, he, hw⟩ := hs
    rcases hv with hout | hS
    · rw [hout, hend out hfinal] at he
      cases he
    · have hedge : e.relabel f ∈ a.edgesOf (v.relabel f).state := by
        rw [Visit.state_relabel, hm.edges_eq _ hS]
        exact List.mem_map_of_mem he
      have hnext : (e.relabel f).next? a.flags text (v.relabel f) = some (w.relabel f) := by
        rw [hm.flags_eq, Edge.next?_relabel, hw, Option.map_some]
      have htarget : w.state ∈ insert out S :=
        (Edge.next?_eq_some_iff.1 hw).1 ▸ hm.target_mem _ hS e he
      rw [List.getLastD_cons] at hrest
      exact .step ⟨_, hedge, hnext⟩ (ih htarget hrest)

/-- A step of a guided run is one of the copy, in front of a run that is guided further on. -/
theorem guided_step {before after : List Edge} {e : Edge} {rest : List Visit}
    (ht : Tallies f D seen seen') (hS : v.state ∈ S)
    (hsplit : b.edgesOf v.state = before ++ e :: after) (hw : e.next? b.flags text v = some w)
    (hn : e.label.isEpsilon = true → w ∉ seen ∧ w ∉ marks b.flags text after v)
    (hpre : ∀ g ∈ before, ∀ u, g.next? b.flags text v = some u →
      g.label.isEpsilon = true ∧ u ∈ seen ∨
        ¬b.AcceptsOutside text (seen ∪ marks b.flags text (e :: after) v) u)
    (hrest : a.Guided text (seen' ∪ Visit.relabel f '' marks b.flags text (e :: after) v)
      (w.relabel f) rest) :
    a.Guided text seen' (v.relabel f) (w.relabel f :: rest) := by
  have hD {g : Edge} {u : Visit} (hg : g ∈ before ++ e :: after)
      (hu : g.next? b.flags text v = some u) : u.state ∈ D :=
    (Edge.next?_eq_some_iff.1 hu).1 ▸ hm.subset (hm.target_mem _ hS g (hsplit ▸ hg))
  have hmarks (edges : List Edge) : marks a.flags text (edges.map (.relabel f)) (v.relabel f) =
      Visit.relabel f '' marks b.flags text edges v := by
    rw [hm.flags_eq, marks_relabel]
  have hsplit' : a.edgesOf (v.relabel f).state =
      before.map (.relabel f) ++ e.relabel f :: after.map (.relabel f) := by
    rw [Visit.state_relabel, hm.edges_eq _ hS, hsplit, List.map_append, List.map_cons]
  rw [← hmarks, List.map_cons] at hrest
  refine .step (hm.not_final _ hS).2 hsplit' ?_ (fun hi => ⟨fun hmem => ?_, fun hmem => ?_⟩)
    (fun g' hg' u' hu' => ?_) hrest
  · rw [hm.flags_eq, Edge.next?_relabel, hw, Option.map_some]
  · exact (hn hi).1 ((ht w (hD (List.mem_append_right _ List.mem_cons_self) hw)).2 hmem)
  · rw [hmarks] at hmem
    obtain ⟨u, ⟨g, hg, hi', hu⟩, heq⟩ := hmem
    obtain rfl := Visit.relabel_inj hm.injOn
      (hD (List.mem_append_right _ (List.mem_cons_of_mem _ hg)) hu)
      (hD (List.mem_append_right _ List.mem_cons_self) hw) heq
    exact (hn hi).2 ⟨g, hg, hi', hu⟩
  · obtain ⟨g, hg, rfl⟩ := List.mem_map.1 hg'
    rw [hm.flags_eq, Edge.next?_relabel, Option.map_eq_some_iff] at hu'
    obtain ⟨u, hu, rfl⟩ := hu'
    have huD := hD (List.mem_append_left _ hg) hu
    rcases hpre g hg u hu with ⟨hi, hmem⟩ | hdead
    · exact .inl ⟨hi, (ht u huD).1 hmem⟩
    · refine .inr fun hacc => hdead (hm.acceptsOutside (ht.union hm.injOn ?_) huD ?_)
      · rintro x ⟨g', hg', -, hx⟩
        exact hD (List.mem_append_right _ hg') hx
      · rwa [← hmarks, List.map_cons]

end Mirrors

/-- The run goes up to where the part ends, and is guided further on. A run of the copy that is
guided from there can be continued backwards through the copy. -/
def Carried (b a : Automaton) (text : String) (f : Nat → Nat) (out : Nat) (D : Set Nat)
    (seen seen' : Set Visit) (v : Visit) (run : List Visit) : Prop :=
  ∃ run₁ run₂, run = run₁ ++ run₂ ∧ (run₁.getLastD v).state = out ∧
    (∀ u ∈ b.kept text v run₁, u.state ∈ D) ∧
    b.Guided text (seen ∪ b.kept text v run₁) (run₁.getLastD v) run₂ ∧
    ∀ rest, a.Guided text (seen' ∪ Visit.relabel f '' b.kept text v run₁)
      ((run₁.getLastD v).relabel f) rest →
        a.Guided text seen' (v.relabel f) (run₁.map (Visit.relabel f) ++ rest)

/-- A guided run is carried through the copy of a part. -/
theorem Mirrors.carry {out : Nat} (hm : b.Mirrors a f S out D) (hp : b.Parted)
    (ht : Tallies f D seen seen') (hv : v.state ∈ insert out S) (h : b.Guided text seen v run) :
    b.Carried a text f out D seen seen' v run := by
  have hend {seen seen' : Set Visit} {v : Visit} {run : List Visit} (hout : v.state = out)
      (h : b.Guided text seen v run) : b.Carried a text f out D seen seen' v run := by
    refine ⟨[], run, rfl, hout, nofun, ?_, fun rest hrest => ?_⟩
    · rwa [kept, Set.union_empty]
    · rwa [kept, Set.image_empty, Set.union_empty] at hrest
  induction h generalizing seen' with
  | @final seen v hf =>
    refine hend (hv.resolve_right fun hS => ?_) (.final hf)
    rw [(hm.not_final _ hS).1] at hf
    cases hf
  | @step seen v w run before after e hf hsplit hw hn hpre hrun ih =>
    rcases hv with hout | hS
    · exact hend hout (.step hf hsplit hw hn hpre hrun)
    have hmem {g : Edge} {u : Visit} (hg : g ∈ e :: after)
        (hu : g.next? b.flags text v = some u) : u.state ∈ insert out S :=
      (Edge.next?_eq_some_iff.1 hu).1 ▸
        hm.target_mem _ hS g (hsplit ▸ List.mem_append_right _ hg)
    have hmarked : ∀ u ∈ marks b.flags text (e :: after) v, u.state ∈ D := by
      rintro u ⟨g, hg, -, hu⟩
      exact hm.subset (hmem hg hu)
    obtain ⟨run₁, run₂, rfl, hlast, hkept, hguided, hback⟩ :=
      ih (ht.union hm.injOn hmarked) (hmem List.mem_cons_self hw)
    refine ⟨w :: run₁, run₂, rfl, ?_⟩
    rw [List.getLastD_cons, hp.kept_cons_eq hsplit hw, ← Set.union_assoc, Set.image_union,
      ← Set.union_assoc]
    refine ⟨hlast, ?_, hguided, fun rest hrest => ?_⟩
    · rintro u (hu | hu)
      · exact hmarked u hu
      · exact hkept u hu
    · exact hm.guided_step ht hS hsplit hw hn hpre (hback rest hrest)

/-- A guided run of an automaton that accepts only where the part ends is carried through the copy
of the whole. -/
theorem Mirrors.guided_append {out stop : Nat} (hm : b.Mirrors a f S out D) (hp : b.Parted)
    (hfinal : b.isFinal out = true) (ht : Tallies f D seen seen') (hv : v.state ∈ insert out S)
    (h : b.Guided text seen v run) (hlast : run.getLastD v = ⟨out, stop⟩)
    (hrest : a.Guided text (seen' ∪ Visit.relabel f '' b.kept text v run) ⟨f out, stop⟩ run') :
    a.Guided text seen' (v.relabel f) (run.map (Visit.relabel f) ++ run') := by
  obtain ⟨run₁, run₂, rfl, hout, -, hguided, hback⟩ := hm.carry hp ht hv h
  obtain rfl : run₂ = [] := by
    cases hguided with
    | final => rfl
    | step hf =>
      rw [hout, hfinal] at hf
      cases hf
  rw [List.append_nil] at hrest hlast ⊢
  refine hback run' ?_
  rwa [hlast]

end Automaton

end PatternAutomata
