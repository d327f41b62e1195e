import PatternAutomata.Proofs.Search.Scanning

/-!
# Replacing the matches of a text

Matches are replaced from the last to the first. Up to where a match ends the text is then still
what it was, so the match can be replaced where it was found. The result is what comes of going
through the text once from left to right.

## Main definition

* `Template.assemble?` — the text with all matches replaced, from left to right.

## Main statements

* `Matcher.splice_matches` — what has been replaced so far.
* `Matcher.replaceAll_eq_assemble` — replacing from the last match to the first, and from left to
  right.
-/
namespace PatternAutomata

/-- The text from `offset` on, with the expansion of the template in the place of each match. -/
def Template.assemble? (t : Template) (text : String) : Nat → List Match → Option String
  | offset, [] => Text.slice? text offset text.utf8ByteSize
  | offset, r :: rs => do
    let gap ← Text.slice? text offset r.start
    let rest ← assemble? t text r.stop rs
    return gap ++ t.expand r ++ rest

/-- What the template `$0` expands to. -/
theorem Template.expand_whole (r : Match) :
    (Template.parse "$0").expand r = (r.group? 0).getD "" := by
  have hparse : Template.parse "$0" = ⟨[.group 0]⟩ := by
    simp [Template.parse, readPieces, isDigit, Text.decimalValue]
  rw [hparse]
  simp [expand, Piece.expand]

/-- What comes behind a range does not matter for it. -/
theorem Span.Ordered.of_prefix {before after rest : String} {span : Span}
    (h : span.Ordered (before ++ after)) (hstop : span.stop = before.utf8ByteSize) :
    span.Ordered (before ++ rest) := by
  obtain ⟨first, last, hfirst, hstart⟩ := Text.isBoundary_iff.1 h.start
  obtain ⟨part, rfl, -⟩ := Text.exists_between hfirst.symm (hstart.trans_le (hstop ▸ h.le))
  have hcut : first ++ part ++ rest = first ++ (part ++ rest) := String.append_assoc
  refine ⟨?_, ?_, h.le⟩
  · exact Text.isBoundary_iff.2 ⟨first, part ++ rest, hcut, hstart⟩
  · exact Text.isBoundary_iff.2 ⟨first ++ part, rest, rfl, hstop.symm⟩

namespace Match

variable {a : Automaton} {text : String} {p : Path} {index : Nat} {span : Span}

/-- A range of a match is the whole of it or read off its path. -/
theorem eq_or_exists_locate (h : (ofPath a text p).span? index = some span) :
    span = ⟨p.start, p.stop⟩ ∨ ∃ g, p.locate g = some span := by
  have hmem : some span ∈ (ofPath a text p).spans :=
    List.mem_of_getElem? (Option.join_eq_some_iff.1 h)
  rcases List.mem_cons.1 hmem with hwhole | hgroup
  · exact .inl (Option.some.inj hwhole)
  · obtain ⟨i, -, hfind⟩ := List.mem_map.1 hgroup
    obtain ⟨g, -, hg⟩ := List.exists_of_findSome?_eq_some hfind
    exact .inr ⟨g, hg⟩

/-- The matches lie on boundaries, one behind the other, from `offset` on. -/
structure Successive (text : String) (offset : Nat) (rs : List Match) : Prop where
  ordered : ∀ r ∈ rs, Span.Ordered text ⟨r.start, r.stop⟩
  le_start : ∀ r ∈ rs, offset ≤ r.start
  pairwise : rs.Pairwise fun r r' => r.stop ≤ r'.start

variable {offset : Nat} {r : Match} {rs rs' : List Match} {before after : String}

theorem Successive.tail (h : Successive text offset (r :: rs)) : Successive text r.stop rs :=
  ⟨fun r' hr' => h.ordered r' (List.mem_cons_of_mem r hr'),
    fun _ hr' => List.rel_of_pairwise_cons h.pairwise hr', h.pairwise.tail⟩

theorem Successive.suffix (h : Successive text offset (rs' ++ rs)) :
    ∃ offset', Successive text offset' rs := by
  induction rs' generalizing offset with
  | nil => exact ⟨offset, h⟩
  | cons r rs' ih => exact ih h.tail

/-- The first match cuts the rest of the text into what lies before it, itself, and what lies
behind it. -/
theorem Successive.exists_pieces
    (h : Successive (before ++ after) before.utf8ByteSize (r :: rs)) :
    ∃ gap part rest, after = gap ++ (part ++ rest) ∧
      (before ++ gap).utf8ByteSize = r.start ∧ (before ++ gap ++ part).utf8ByteSize = r.stop := by
  have hordered := h.ordered r List.mem_cons_self
  have hle : before.utf8ByteSize ≤ r.start := h.le_start r List.mem_cons_self
  obtain ⟨first, last, hfirst, hstart⟩ := Text.isBoundary_iff.1 hordered.start
  obtain ⟨first', last', hfirst', hstop⟩ := Text.isBoundary_iff.1 hordered.stop
  obtain ⟨gap, rfl, hafter⟩ := Text.exists_between hfirst (hstart.symm ▸ hle)
  obtain ⟨part, rfl, hlast⟩ := Text.exists_between (hfirst.symm.trans hfirst')
    (hstart.symm ▸ hstop.symm ▸ hordered.le)
  exact ⟨gap, part, last', hlast ▸ hafter, hstart, hstop⟩

end Match

namespace Matcher

variable {m : Matcher} {text before after : String} {t : Template} {r : Match} {rs : List Match}

/-- Once the matches that lie behind `before` have been replaced, there is the text as it was up
to there, and then what comes of the rest from left to right. -/
theorem splice_matches (t : Template)
    (h : Match.Successive (before ++ after) before.utf8ByteSize rs) :
    ∃ rest, t.assemble? (before ++ after) before.utf8ByteSize rs = some rest ∧
      rs.foldrM (spliceMatch t) (before ++ after) = .ok (before ++ rest) := by
  induction rs generalizing before after with
  | nil =>
    refine ⟨after, ?_, rfl⟩
    exact Text.slice?_eq_some_iff.2 ⟨before, "", by simp, rfl, rfl⟩
  | cons r rs ih =>
    obtain ⟨gap, part, behind, rfl, hstart, hstop⟩ := h.exists_pieces
    have htext : before ++ (gap ++ (part ++ behind)) = before ++ gap ++ part ++ behind := by
      simp only [String.append_assoc]
    have htail : Match.Successive (before ++ gap ++ part ++ behind)
        (before ++ gap ++ part).utf8ByteSize rs := by
      rw [hstop, ← htext]
      exact h.tail
    obtain ⟨rest, hassemble, hfold⟩ := ih htail
    rw [← htext, hstop] at hassemble
    have hgap : Text.slice? (before ++ (gap ++ (part ++ behind))) before.utf8ByteSize r.start =
        some gap := Text.slice?_eq_some_iff.2 ⟨before, part ++ behind, rfl, rfl, hstart⟩
    have hsplice : Text.splice? (before ++ gap ++ part ++ rest) r.start r.stop (t.expand r) =
        some (before ++ (gap ++ t.expand r ++ rest)) := by
      have hcut : before ++ gap ++ part ++ rest = before ++ gap ++ (part ++ rest) :=
        String.append_assoc
      rw [← hstart, ← hstop, hcut, Text.splice?_append]
      simp only [String.append_assoc]
    refine ⟨gap ++ t.expand r ++ rest, ?_, ?_⟩
    · simp [Template.assemble?, hgap, hassemble]
    · rw [List.foldrM_cons, htext, hfold]
      change spliceMatch t r (before ++ gap ++ part ++ rest) = _
      rw [spliceMatch, hsplice]

/-- Where a match ends the text is still what it was, once the matches behind it have been
replaced. -/
theorem splice_ordered (t : Template) {offset : Nat}
    (h : Match.Successive text offset (r :: rs)) :
    ∃ current, rs.foldrM (spliceMatch t) text = .ok current ∧
      Span.Ordered current ⟨r.start, r.stop⟩ := by
  have hordered := h.ordered r List.mem_cons_self
  obtain ⟨before, after, rfl, hstop⟩ := Text.isBoundary_iff.1 hordered.stop
  have htail : Match.Successive (before ++ after) before.utf8ByteSize rs := hstop ▸ h.tail
  obtain ⟨rest, -, hfold⟩ := splice_matches t htail
  exact ⟨before ++ rest, hfold, hordered.of_prefix hstop.symm⟩

/-- What is replaced by itself stays. -/
theorem foldrM_splice_self
    (h : ∀ r ∈ rs, Text.slice? text r.start r.stop = some (t.expand r)) :
    rs.foldrM (spliceMatch t) text = .ok text := by
  induction rs with
  | nil => rfl
  | cons r rs ih =>
    obtain ⟨hr, hrs⟩ := List.forall_mem_cons.1 h
    rw [List.foldrM_cons, ih hrs]
    change spliceMatch t r text = _
    obtain ⟨before, after, htext, hstart, hstop⟩ := Text.slice?_eq_some_iff.1 hr
    have hsplice : Text.splice? text r.start r.stop (t.expand r) = some text := by
      rw [htext, ← hstart, ← hstop, Text.splice?_append, String.append_assoc]
    rw [spliceMatch, hsplice]

theorem Scans.successive (hc : m.automaton.Closed) {offset : Nat} (h : m.Scans text offset rs) :
    Match.Successive text offset rs := by
  obtain ⟨hge, hpairwise⟩ := h.pairwise hc
  exact ⟨fun r hr => (h.found hc r hr).ordered, hge, hpairwise.imp And.right⟩

/-- The ranges of a match can be read off the text. -/
theorem Found.exists_group (hc : m.automaton.Closed) (h : m.Found text r) {index : Nat}
    {span : Span} (hspan : r.span? index = some span) : ∃ part, r.group? index = some part := by
  obtain ⟨path, hexec, rfl⟩ := h.exists_exec
  obtain ⟨-, haligned⟩ := aligned_of_exec hc h.ordered.start hexec
  have hordered : span.Ordered text := by
    rcases Match.eq_or_exists_locate hspan with rfl | ⟨g, hg⟩
    · exact haligned.ordered
    · exact haligned.ordered_of_locate hg
  obtain ⟨part, hpart⟩ := hordered.exists_slice
  exact ⟨part, by rw [Match.group?, hspan]; exact hpart⟩

theorem Found.group_zero (h : m.Found text r) : r.group? 0 = Text.slice? text r.start r.stop := by
  obtain ⟨path, -, rfl⟩ := h.exists_exec
  rfl

/-- A scan that hits no limit finds all matches. -/
theorem exists_findAll (hc : m.automaton.Closed) (text : String)
    (hfuel : ∀ limit, m.findAll text ≠ .error (.fuelExhausted limit))
    (hstack : ∀ limit, m.findAll text ≠ .error (.stackExceeded limit)) :
    ∃ rs, m.findAll text = .ok rs ∧ m.Scans text 0 rs := by
  rcases findAll_cases hc text with ⟨fault, o, hfault, hexec⟩ | hscans
  · obtain ⟨pops, peak, hexceeded⟩ := exceeded_of_exec hc hexec
    cases hexceeded with
    | fuel _ _ => exact absurd hfault (hfuel _)
    | stack _ _ => exact absurd hfault (hstack _)
  · exact hscans

/-- Replacing in an automaton without dangling ids, if no limit is hit. The result is what comes of
going through the text from left to right, every gap between the matches staying as it is. Each
match still lies on boundaries when its turn comes, and so do the ranges of the groups that the
template may name. What `$0` gives is the text itself. -/
theorem replaceAll_eq_assemble (hpos : 0 < m.automaton.stateCount)
    (hd : m.automaton.danglingIds = []) (text template : String)
    (hfuel : ∀ limit, m.findAll text ≠ .error (.fuelExhausted limit))
    (hstack : ∀ limit, m.findAll text ≠ .error (.stackExceeded limit)) :
    ∃ rs out, m.findAll text = .ok rs ∧ m.replaceAll text template = .ok out ∧
      (Template.parse template).assemble? text 0 rs = some out ∧
      (∀ before r after, rs = before ++ r :: after →
        ∃ current, after.foldrM (spliceMatch (.parse template)) text = .ok current ∧
          Span.Ordered current ⟨r.start, r.stop⟩) ∧
      (∀ r ∈ rs, ∀ index span, r.span? index = some span → ∃ part, r.group? index = some part) ∧
      m.replaceAll text "$0" = .ok text := by
  have hc := Automaton.closed_of_danglingIds hpos hd
  obtain ⟨rs, hrs, hscans⟩ := exists_findAll hc text hfuel hstack
  have hsuccessive := hscans.successive hc
  have hreplace (source : String) :
      m.replaceAll text source = rs.foldrM (spliceMatch (.parse source)) text := by
    rw [replaceAll, hrs]
    rfl
  have hempty : Match.Successive ("" ++ text) "".utf8ByteSize rs := by
    rw [String.empty_append]
    exact hsuccessive
  obtain ⟨out, hassemble, hfold⟩ := splice_matches (.parse template) hempty
  rw [String.empty_append] at hassemble hfold
  refine ⟨rs, out, hrs, (hreplace template).trans hfold, hassemble, ?current, ?groups, ?whole⟩
  case current =>
    rintro before r after rfl
    obtain ⟨offset, hsuffix⟩ := hsuccessive.suffix
    exact splice_ordered _ hsuffix
  case groups =>
    intro r hr index span hspan
    exact (hscans.found hc r hr).exists_group hc hspan
  case whole =>
    refine (hreplace "$0").trans (foldrM_splice_self fun r hr => ?_)
    have hfound := hscans.found hc r hr
    obtain ⟨part, hpart⟩ := hfound.ordered.exists_slice
    rw [Template.expand_whole, hfound.group_zero, hpart]
    rfl

/-- The tangled automaton, with just as much fuel and room as its searches in `1éa` need. -/
def tight : Matcher :=
  ⟨Automaton.tangle, ⟨some 9, some 3⟩⟩

/-- The match of the last two characters is put in brackets. -/
theorem replaceAll_eq_assemble_tight :
    0 < tight.automaton.stateCount ∧ tight.automaton.danglingIds = [] ∧
      (∀ limit, tight.findAll "1éa" ≠ .error (.fuelExhausted limit)) ∧
      (∀ limit, tight.findAll "1éa" ≠ .error (.stackExceeded limit)) ∧
      tight.replaceAll "1éa" "[$0]" = .ok "1[éa]" ∧ tight.replaceAll "1éa" "$0" = .ok "1éa" := by
  have hpos : 0 < tight.automaton.stateCount := by decide
  have hd : tight.automaton.danglingIds = [] := by decide
  let r : Match := .ofPath tight.automaton "1éa"
    ⟨⟨3, 4⟩, [⟨2, 4⟩, ⟨1, 3⟩, ⟨2, 3⟩, ⟨1, 1⟩, ⟨0, 1⟩]⟩
  have hfirst : tight.exec "1éa" 0 = .ok none :=
    exec_of_execWithin (n := 9) (by decide +kernel)
  have hsecond : tight.exec "1éa" 1 =
      .ok (some ⟨⟨3, 4⟩, [⟨2, 4⟩, ⟨1, 3⟩, ⟨2, 3⟩, ⟨1, 1⟩, ⟨0, 1⟩]⟩) :=
    exec_of_execWithin (n := 9) (by decide +kernel)
  have hrest : tight.findAllAmong "1éa" [1, 3] = .ok [r] := by
    rw [findAllAmong, hsecond]
    change (tight.findAllAmong "1éa" [] >>= fun more => .ok (r :: more)) = _
    rw [findAllAmong]
    rfl
  have hall : tight.findAll "1éa" = .ok [r] := by
    rw [findAll, show Text.starts "1éa" = [0, 1, 3] by decide, findAllAmong, hfirst]
    exact hrest
  have hno (fault : Fault) : tight.findAll "1éa" ≠ .error fault := by
    rw [hall]
    intro h
    cases h
  obtain ⟨rs, out, hrs, hreplace, hassemble, -, -, hwhole⟩ :=
    replaceAll_eq_assemble hpos hd "1éa" "[$0]" (fun _ => hno _) (fun _ => hno _)
  obtain rfl := Except.ok.inj (hall.symm.trans hrs)
  have hparse : Template.parse "[$0]" = ⟨[.char '[', .group 0, .char ']']⟩ := by
    simp [Template.parse, Template.readPieces, isDigit, Text.decimalValue]
  have hout : (Template.parse "[$0]").assemble? "1éa" 0 [r] = some "1[éa]" := by
    rw [hparse]
    decide +kernel
  obtain rfl := Option.some.inj (hout.symm.trans hassemble)
  exact ⟨hpos, hd, fun _ => hno _, fun _ => hno _, hreplace, hwhole⟩

end Matcher

end PatternAutomata
