import ArenaScheme.Proofs.Unfolding

/-! The text of a value. Every value has an outline, and its text is that of the outline; if the value
has a copy, that is the outline of the copy. Something is cut off exactly if what is written of the
value leads to a cycle. -/

namespace ArenaScheme

open Memory Heap Relation

namespace Heap

/-- What is written of a datum, from left to right. -/
def writtenParts (h : Heap) (r : Ref) : List Ref :=
  match h.object r with
  | .tagged _ value => [value]
  | _ => h.parts r

/-- A field of the datum at `r` that is written leads to `c`. -/
def HasWrittenPart (h : Heap) (r c : Ref) : Prop := c ∈ h.writtenParts r

variable {h : Heap} {r c x : Nat} {d : Datum} {outer : List Ref} {path : Std.TreeSet Ref}
  {t : Outline}

theorem hasWrittenPart_iff_of_pair {car cdr : Ref} (ho : h.object r = .pair car cdr) :
    h.HasWrittenPart r c ↔ c = car ∨ c = cdr := by
  simp [HasWrittenPart, writtenParts, parts, ho]

theorem hasWrittenPart_iff_of_vector {length : Nat} (ho : h.object r = .vector length) :
    h.HasWrittenPart r c ↔ ∃ i < length, h.field r (1 + i) = c := by
  simp [HasWrittenPart, writtenParts, parts, ho]

theorem hasWrittenPart_iff_of_tagged {marker value : Ref} (ho : h.object r = .tagged marker value) :
    h.HasWrittenPart r c ↔ c = value := by
  simp [HasWrittenPart, writtenParts, ho]

namespace Outlines

/-- What is cut off is a datum that the writer is inside of. -/
theorem cycle_of_hasCut (ht : h.Outlines outer r t) (hcut : t.HasCut) :
    ∃ x, ReflTransGen h.HasWrittenPart r x ∧ (x ∈ outer ∨ TransGen h.HasWrittenPart x x) := by
  -- from a part on, the writer is inside of `r` as well
  have hstep : ∀ {outer r c}, h.HasWrittenPart r c →
      (∃ x, ReflTransGen h.HasWrittenPart c x ∧
        (x ∈ r :: outer ∨ TransGen h.HasWrittenPart x x)) →
      ∃ x, ReflTransGen h.HasWrittenPart r x ∧ (x ∈ outer ∨ TransGen h.HasWrittenPart x x) := by
    rintro outer r c hpart ⟨x, hreach, hmem | hcycle⟩
    · refine ⟨x, .head hpart hreach, ?_⟩
      rcases List.mem_cons.mp hmem with rfl | hmem
      · exact Or.inr (.head' hpart hreach)
      · exact Or.inl hmem
    · exact ⟨x, .head hpart hreach, Or.inr hcycle⟩
  induction ht with
  | leaf _ => cases hcut
  | cut hmem _ => exact ⟨_, .refl, Or.inl hmem⟩
  | pair _ ho _ _ ihcar ihcdr =>
    cases hcut with
    | car hcut => exact hstep ((hasWrittenPart_iff_of_pair ho).mpr (Or.inl rfl)) (ihcar hcut)
    | cdr hcut => exact hstep ((hasWrittenPart_iff_of_pair ho).mpr (Or.inr rfl)) (ihcdr hcut)
  | vector _ ho _ ih =>
    cases hcut with
    | item hmem hcut =>
      obtain ⟨i, hi, rfl⟩ := List.mem_iff_getElem.mp hmem
      exact hstep ((hasWrittenPart_iff_of_vector ho).mpr ⟨i, hi, rfl⟩) (ih i hi hcut)
  | tagged ho _ ih =>
    cases hcut with
    | value hcut => exact hstep ((hasWrittenPart_iff_of_tagged ho).mpr rfl) (ih hcut)

/-- A cycle is never written down in full: one of the parts of `r` leads to it as well. -/
theorem hasCut_of_cycle (ht : h.Outlines outer r t) (hcycle : LeadsToCycle h.HasWrittenPart r) :
    t.HasCut := by
  induction ht with
  | leaf hl =>
    obtain ⟨c, hc, -⟩ := hcycle.part
    have hnone := leaf?_parts hl
    unfold HasWrittenPart writtenParts at hc
    split at hc
    next ho => exact absurd ho ((object_of_leaf? hl).2.2 _ _)
    next => rw [hnone] at hc; cases hc
  | cut _ _ => exact .cut
  | pair _ ho _ _ ihcar ihcdr =>
    obtain ⟨c, hc, hcycle⟩ := hcycle.part
    rcases (hasWrittenPart_iff_of_pair ho).mp hc with rfl | rfl
    · exact .car (ihcar hcycle)
    · exact .cdr (ihcdr hcycle)
  | vector _ ho _ ih =>
    obtain ⟨c, hc, hcycle⟩ := hcycle.part
    obtain ⟨i, hi, rfl⟩ := (hasWrittenPart_iff_of_vector ho).mp hc
    exact .item (List.getElem_mem hi) (ih i hi hcycle)
  | tagged ho _ ih =>
    obtain ⟨c, hc, hcycle⟩ := hcycle.part
    obtain rfl := (hasWrittenPart_iff_of_tagged ho).mp hc
    exact .value (ih hcycle)

end Outlines

/-- If nothing is come upon again, the outline is that of the tree. -/
theorem Unfolds.outlines (hd : h.Unfolds r d) (hno : ∀ s x, ¬ h.Reenters outer r s x) :
    h.Outlines outer r d.outline := by
  induction hd generalizing outer with
  | @leaf r d hl =>
    have hleaf : d.outline = .leaf d := by
      unfold leaf? at hl
      cases ho : h.object r with
      | symbol | string | builtin | closure =>
        simp only [ho] at hl
        obtain ⟨_, -, rfl⟩ := exists_of_toOption hl
        rfl
      | _ =>
        simp only [ho] at hl
        cases hl <;> rfl
    rw [hleaf]
    exact .leaf hl
  | @pair r car cdr a d ho _ _ ihcar ihcdr =>
    have hout : r ∉ outer := fun hmem => hno [] r ⟨rfl, hmem, isCompound_of_pair ho⟩
    have hparts : h.parts r = [car, cdr] := by simp only [parts, ho]
    exact .pair hout ho (ihcar fun s x hs => hno (0 :: s) x ⟨car, by rw [hparts]; rfl, hs⟩)
      (ihcdr fun s x hs => hno (1 :: s) x ⟨cdr, by rw [hparts]; rfl, hs⟩)
  | @vector r items ho _ ih =>
    have hout : r ∉ outer := fun hmem => hno [] r ⟨rfl, hmem, isCompound_of_vector ho⟩
    rw [Datum.outline, Datum.outlines_eq_map]
    refine .vector hout (by rw [List.length_map, ho]) fun i hi => ?_
    rw [List.length_map] at hi
    rw [List.getElem_map]
    refine ih i hi fun s x hs => hno (i :: s) x ⟨_, ?_, hs⟩
    simp [parts, ho, hi]
  | @tagged r marker value m d ho _ _ _ ih =>
    have hparts : h.parts r = [marker, value] := by simp only [parts, ho]
    exact .tagged ho (ih fun s x hs => hno (1 :: s) x ⟨value, by rw [hparts]; rfl, hs⟩)

/-- Every value has an outline. -/
theorem Proper.exists_outlines (hp : h.Proper) {fuel : Nat} (hr : h.IsValue r)
    (hpath : h.IsPath path outer) (hfuel : h.depth path.contains r ≤ fuel) :
    ∃ t, h.Outlines outer r t := by
  induction fuel generalizing r outer path with
  | zero => exact absurd hfuel (by unfold depth; omega)
  | succ fuel ih =>
    rcases hp.leaf_or_parts hr with ⟨d, hl⟩ | hk
    · exact ⟨_, .leaf hl⟩
    by_cases hin : r ∈ outer ∧ h.IsCompound r
    · exact ⟨_, .cut hin.1 hin.2⟩
    have hmet := hpath.not_contains hin
    have hpart : ∀ c ∈ h.parts r, ∃ t, h.Outlines (r :: outer) c t := fun c hc => by
      have hvalue := hp.mem_parts hr.mem hc
      have hlt := depth_within hp.toSound hr.mem hmet hc hvalue.mem
      exact ih hvalue (hpath.within hk) (by omega)
    unfold parts at hpart
    rcases object_of_kind hk with ⟨car, cdr, ho⟩ | ⟨length, ho⟩ | ⟨marker, value, ho⟩
    · simp only [ho, List.forall_mem_cons] at hpart
      obtain ⟨⟨a, ha⟩, ⟨b, hb⟩, -⟩ := hpart
      exact ⟨_, .pair (fun hmem => hin ⟨hmem, isCompound_of_pair ho⟩) ho ha hb⟩
    · simp only [ho, List.forall_mem_map] at hpart
      choose item hitem using hpart
      refine ⟨.vector ((List.range length).attach.map fun i => item i.1 i.2),
        .vector (fun hmem => hin ⟨hmem, isCompound_of_vector ho⟩) ?_ fun i hi => ?_⟩
      · simp [ho]
      · simpa using hitem i (by simpa using hi)
    · simp only [ho, List.forall_mem_cons] at hpart
      obtain ⟨-, ⟨t, ht⟩, -⟩ := hpart
      exact ⟨_, .tagged ho ht⟩

end Heap

namespace Outline

variable {mode : WriteMode} {t : Outline}

theorem text_infix_itemsText {items : List Outline} (ht : t ∈ items) :
    t.text mode <:+: itemsText mode items ∧ t.text mode <:+: restText mode items := by
  induction items with
  | nil => cases ht
  | cons u items ih =>
    rw [itemsText, restText]
    rcases List.mem_cons.mp ht with rfl | ht
    · exact ⟨(List.prefix_append _ _).isInfix, (List.infix_append [' '] _ _)⟩
    · have hrest : t.text mode <:+: u.text mode ++ restText mode items :=
        (ih ht).2.trans (List.suffix_append _ _).isInfix
      exact ⟨hrest, hrest.trans (List.suffix_cons _ _).isInfix⟩

/-- Where something is cut off, the text has dots. -/
theorem HasCut.dots (ht : t.HasCut) :
    ['.', '.', '.'] <:+: t.text mode ∧ ['.', '.', '.'] <:+: t.tailText mode := by
  induction ht with
  | cut => exact ⟨List.infix_refl _, [' ', '.', ' '], [], rfl⟩
  | @car a b _ ih =>
    rw [text, tailText]
    have hpair : ['.', '.', '.'] <:+: a.text mode ++ b.tailText mode :=
      ih.1.trans (List.prefix_append _ _).isInfix
    exact ⟨hpair.trans (List.infix_append ['('] _ [')']), hpair.trans (List.suffix_cons _ _).isInfix⟩
  | @cdr a b _ ih =>
    rw [text, tailText]
    have hpair : ['.', '.', '.'] <:+: a.text mode ++ b.tailText mode :=
      ih.2.trans (List.suffix_append _ _).isInfix
    exact ⟨hpair.trans (List.infix_append ['('] _ [')']), hpair.trans (List.suffix_cons _ _).isInfix⟩
  | @item items t hmem _ ih =>
    rw [text, tailText]
    have hitems : ['.', '.', '.'] <:+: '#' :: '(' :: (itemsText mode items ++ [')']) :=
      (ih.1.trans (text_infix_itemsText hmem).1).trans (List.infix_append ['#', '('] _ [')'])
    exact ⟨hitems, hitems.trans (List.suffix_append [' ', '.', ' '] _).isInfix⟩
  | @value t _ ih =>
    rw [text, tailText]
    have hvalue : ['.', '.', '.'] <:+: '<' :: 't' :: 'a' :: 'g' :: ' ' :: (t.text mode ++ ['>']) :=
      ih.1.trans (List.infix_append ['<', 't', 'a', 'g', ' '] _ ['>'])
    exact ⟨hvalue, hvalue.trans (List.suffix_append [' ', '.', ' '] _).isInfix⟩

end Outline

mutual

theorem Datum.not_hasCut_outline : (d : Datum) → ¬ d.outline.HasCut
  | .pair a b => by
    rw [outline]
    rintro (_ | hcut | hcut)
    · exact a.not_hasCut_outline hcut
    · exact b.not_hasCut_outline hcut
  | .vector items => not_hasCut_outlines items
  | .tagged _ d => by
    rw [outline]
    rintro (_ | _ | _ | _ | hcut)
    exact d.not_hasCut_outline hcut
  | .integer _ | .float _ | .symbol _ | .string _ | .boolean _ | .char _ | .null | .eof
  | .procedure _ | .environment => by
    rw [outline] <;> nofun

theorem Datum.not_hasCut_outlines : (items : List Datum) → ¬ (Outline.vector (outlines items)).HasCut
  | [] => by
    rintro (_ | _ | _ | ⟨hmem, _⟩)
    cases hmem
  | d :: items => by
    rw [outlines]
    rintro (_ | _ | _ | ⟨hmem, hcut⟩)
    rcases List.mem_cons.mp hmem with rfl | hmem
    · exact d.not_hasCut_outline hcut
    · exact not_hasCut_outlines items (.item hmem hcut)

end

/-- The text of a value is that of its outline, in which something is cut off exactly if what is written
leads to a cycle. The text of a value that has a copy is a function of the copy. No walk is cut short,
however much fuel there is beyond the bound. -/
theorem text_eq_outline_text {size : UInt32} {h : Heap} {v : Ref} (hreach : Attained size h)
    (hv : h.IsValue v) (mode : WriteMode) :
    (∀ fuel ≥ 2 * h.nestingBound, h.textFrom mode fuel ∅ v "" = h.text mode v) ∧
      (∀ d, h.datum v = .ok d → h.text mode v = String.ofList (d.outline.text mode) ∧
        h.Outlines [] v d.outline ∧ ¬ d.outline.HasCut) ∧
      (∃ t, h.Outlines [] v t) ∧
      ∀ t, h.Outlines [] v t → h.text mode v = String.ofList (t.text mode) ∧
        (t.HasCut ↔ LeadsToCycle h.HasWrittenPart v) ∧
        (t.HasCut → ['.', '.', '.'] <:+: (h.text mode v).toList) := by
  have hp := hreach.proper
  have htext : ∀ t, h.Outlines [] v t → ∀ fuel ≥ 2 * h.nestingBound,
      h.textFrom mode fuel ∅ v "" = String.ofList (t.text mode) := by
    intro t ht fuel hfuel
    rw [(ht.textFrom_eq hp.toSound hv.mem .empty mode).1
      (Nat.le_trans (Nat.mul_le_mul_left 2 (depth_le hp.toSound hv.mem)) hfuel), String.empty_append]
  obtain ⟨t, ht⟩ := hp.exists_outlines hv .empty (Nat.le_refl _)
  refine ⟨fun fuel hfuel => ?_, fun d hd => ?_, ⟨t, ht⟩, fun t ht => ?_⟩
  · rw [htext t ht fuel hfuel, text, htext t ht _ (Nat.le_refl _)]
  · have hcopied := hp.datumFrom_copied hv .empty (depth_le hp.toSound hv.mem)
    rw [datum] at hd
    rw [hd] at hcopied
    have hd := hcopied.1.outlines hcopied.2
    exact ⟨htext _ hd _ (Nat.le_refl _), hd, d.not_hasCut_outline⟩
  · have heq : h.text mode v = String.ofList (t.text mode) := htext t ht _ (Nat.le_refl _)
    refine ⟨heq, ⟨fun hcut => ?_, ht.hasCut_of_cycle⟩, fun hcut => ?_⟩
    · obtain ⟨x, hreach, hmem | hcycle⟩ := ht.cycle_of_hasCut hcut
      · cases hmem
      · exact ⟨x, hreach, hcycle⟩
    · rw [heq, String.toList_ofList]
      exact hcut.dots.1

theorem text_eq_outline_text_knot :
    HeapOp.SensibleRun (Heap.new 0) HeapOp.knot ∧
      (HeapOp.knot.foldl HeapOp.apply (Heap.new 0)).IsValue 59 ∧
      ['.', '.', '.'] <:+: ((HeapOp.knot.foldl HeapOp.apply (Heap.new 0)).text .write 59).toList := by
  have hrun : HeapOp.SensibleRun (Heap.new 0) HeapOp.knot ∧
      (HeapOp.knot.foldl HeapOp.apply (Heap.new 0)).IsValue 59 ∧
      46 ∈ (HeapOp.knot.foldl HeapOp.apply (Heap.new 0)).writtenParts 59 ∧
      33 ∈ (HeapOp.knot.foldl HeapOp.apply (Heap.new 0)).writtenParts 46 ∧
      46 ∈ (HeapOp.knot.foldl HeapOp.apply (Heap.new 0)).writtenParts 33 := by decide +kernel
  obtain ⟨hrun, hvalue, hvector, htagged, hpair⟩ := hrun
  obtain ⟨-, -, ⟨t, ht⟩, htext⟩ :=
    text_eq_outline_text ((.start : Attained 0 _).foldl hrun) hvalue .write
  refine ⟨hrun, hvalue, (htext t ht).2.2 ((htext t ht).2.1.mpr ?_)⟩
  exact ⟨46, .single hvector, .tail (.single htagged) hpair⟩

end ArenaScheme
