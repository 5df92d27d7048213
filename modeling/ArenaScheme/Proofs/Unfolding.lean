import ArenaScheme.Proofs.HeapText
import ArenaScheme.Proofs.Values

/-! Copying a value out of the heap. The copy of a value is the tree that its parts unfold to; there is
one unless the value leads to a cycle, and then the copy fails at the first pair or vector that a
depth-first walk comes upon while it is inside of it. -/

namespace ArenaScheme

open Memory Heap Relation

/-- Steps lead from `r` to a place that they lead back to. -/
def LeadsToCycle (step : Ref → Ref → Prop) (r : Ref) : Prop :=
  ∃ c, ReflTransGen step r c ∧ TransGen step c c

/-- The first step towards a cycle stays on the way, even if `r` is on the cycle. -/
theorem LeadsToCycle.part {step : Ref → Ref → Prop} {r : Ref} (hr : LeadsToCycle step r) :
    ∃ c, step r c ∧ LeadsToCycle step c := by
  obtain ⟨x, hreach, hcycle⟩ := hr
  rcases hreach.cases_head with rfl | ⟨c, hstep, hreach⟩
  · obtain ⟨c, hstep, hback⟩ := TransGen.head'_iff.mp hcycle
    exact ⟨c, hstep, _, hback, hcycle⟩
  · exact ⟨c, hstep, x, hreach, hcycle⟩

namespace Heap

/-- What a datum is made of, from left to right. -/
def parts (h : Heap) (r : Ref) : List Ref :=
  match h.object r with
  | .pair car cdr => [car, cdr]
  | .vector length => (List.range length).map fun i => h.field r (1 + i)
  | .tagged marker value => [marker, value]
  | _ => []

/-- A field of the datum at `r` leads to `c`. -/
def HasPart (h : Heap) (r c : Ref) : Prop := c ∈ h.parts r

/-- The value at a place unfolds to a tree, in which what is shared occurs repeatedly. -/
inductive Unfolds (h : Heap) : Nat → Datum → Prop
  | leaf {r : Nat} {d : Datum} : h.leaf? r = some d → Unfolds h r d
  | pair {r car cdr : Nat} {a d : Datum} : h.object r = .pair car cdr → Unfolds h car a →
    Unfolds h cdr d → Unfolds h r (.pair a d)
  | vector {r : Nat} {items : List Datum} : h.object r = .vector items.length →
    (∀ i (hi : i < items.length), Unfolds h (h.field r (1 + i)) items[i]) →
    Unfolds h r (.vector items)
  | tagged {r marker value : Nat} {m d : Datum} : h.object r = .tagged marker value →
    Unfolds h marker m → Unfolds h value d → Unfolds h r (.tagged m d)

/-- The walk that is at `r`, inside of the data `outer`, and goes on to the parts with the given
numbers comes upon `x`, a pair or a vector that it is inside of. -/
def Reenters (h : Heap) : (outer : List Ref) → (r : Ref) → List Nat → Ref → Prop
  | outer, r, [], x => r = x ∧ r ∈ outer ∧ h.IsCompound r
  | outer, r, i :: s, x => ∃ c, (h.parts r)[i]? = some c ∧ h.Reenters (r :: outer) c s x

/-- `x` is the first pair or vector that a depth-first walk from left to right comes upon while it is
inside of it. Such a walk takes the places in the lexicographic order of their numbers. -/
def FirstReentered (h : Heap) (outer : List Ref) (r x : Ref) : Prop :=
  ∃ s, h.Reenters outer r s x ∧ ∀ t y, h.Reenters outer r t y → s = t ∨ List.Lex (· < ·) s t

/-- What is wrong with a pair or a vector that contains itself. -/
def cycleFault (h : Heap) (r : Ref) : Fault :=
  if h.memory.kind r = .pair then .wrongType "acyclic list" "cyclic list"
  else .wrongType "acyclic vector" "cyclic vector"

variable {h : Heap} {r c x : Nat} {d : Datum} {outer : List Ref} {path : Std.TreeSet Ref} {fuel : Nat}

/-! A value unfolds to one tree at most. -/

theorem Unfolds.unique {d' : Datum} (hd : h.Unfolds r d) (hd' : h.Unfolds r d') : d = d' := by
  induction hd generalizing d' with
  | leaf hl =>
    cases hd' with
    | leaf hl' => exact Option.some.inj (hl.symm.trans hl')
    | pair ho _ _ => exact absurd ho ((object_of_leaf? hl).1 _ _)
    | vector ho _ => exact absurd ho ((object_of_leaf? hl).2.1 _)
    | tagged ho _ _ => exact absurd ho ((object_of_leaf? hl).2.2 _ _)
  | pair ho _ _ ihcar ihcdr =>
    cases hd' with
    | leaf hl => exact absurd ho ((object_of_leaf? hl).1 _ _)
    | pair ho' hcar hcdr =>
      cases ho.symm.trans ho'
      rw [ihcar hcar, ihcdr hcdr]
    | vector ho' _ => cases ho.symm.trans ho'
    | tagged ho' _ _ => cases ho.symm.trans ho'
  | vector ho _ ih =>
    cases hd' with
    | leaf hl => exact absurd ho ((object_of_leaf? hl).2.1 _)
    | pair ho' _ _ => cases ho.symm.trans ho'
    | vector ho' hitems =>
      have hlength := Object.vector.inj (ho.symm.trans ho')
      exact congrArg Datum.vector (List.ext_getElem hlength fun i hi hi' => ih i hi (hitems i hi'))
    | tagged ho' _ _ => cases ho.symm.trans ho'
  | tagged ho _ _ ihmarker ihvalue =>
    cases hd' with
    | leaf hl => exact absurd ho ((object_of_leaf? hl).2.2 _ _)
    | pair ho' _ _ => cases ho.symm.trans ho'
    | vector ho' _ => cases ho.symm.trans ho'
    | tagged ho' hmarker hvalue =>
      cases ho.symm.trans ho'
      rw [ihmarker hmarker, ihvalue hvalue]

theorem leaf?_parts (hl : h.leaf? r = some d) : h.parts r = [] := by
  obtain ⟨hpair, hvector, htagged⟩ := object_of_leaf? hl
  unfold parts
  split
  next ho => exact absurd ho (hpair _ _)
  next ho => exact absurd ho (hvector _)
  next ho => exact absurd ho (htagged _ _)
  next => rfl

/-- What unfolds leads to no cycle: its parts would, and theirs, without end. -/
theorem Unfolds.not_leadsToCycle (hd : h.Unfolds r d) : ¬ LeadsToCycle h.HasPart r := by
  intro hcycle
  induction hd with
  | leaf hl =>
    obtain ⟨c, hc, -⟩ := hcycle.part
    rw [HasPart, leaf?_parts hl] at hc
    cases hc
  | pair ho _ _ ihcar ihcdr =>
    obtain ⟨c, hc, hcycle⟩ := hcycle.part
    simp only [HasPart, parts, ho, List.mem_cons, List.not_mem_nil, or_false] at hc
    rcases hc with rfl | rfl
    · exact ihcar hcycle
    · exact ihcdr hcycle
  | vector ho _ ih =>
    obtain ⟨c, hc, hcycle⟩ := hcycle.part
    simp only [HasPart, parts, ho, List.mem_map, List.mem_range] at hc
    obtain ⟨i, hi, rfl⟩ := hc
    exact ih i hi hcycle
  | tagged ho _ _ ihmarker ihvalue =>
    obtain ⟨c, hc, hcycle⟩ := hcycle.part
    simp only [HasPart, parts, ho, List.mem_cons, List.not_mem_nil, or_false] at hc
    rcases hc with rfl | rfl
    · exact ihmarker hcycle
    · exact ihvalue hcycle

/-! What is come upon again contains itself. -/

theorem Reenters.cycle {s : List Nat} (hs : h.Reenters outer r s x) :
    ReflTransGen h.HasPart r x ∧ (x ∈ outer ∨ TransGen h.HasPart x x) := by
  induction s generalizing outer r with
  | nil =>
    obtain ⟨rfl, hmem, -⟩ := hs
    exact ⟨.refl, Or.inl hmem⟩
  | cons i s ih =>
    obtain ⟨c, hc, hs⟩ := hs
    have hpart : h.HasPart r c := List.mem_of_getElem? hc
    obtain ⟨hreach, hmem | hcycle⟩ := ih hs
    · refine ⟨.head hpart hreach, ?_⟩
      rcases List.mem_cons.mp hmem with rfl | hmem
      · exact Or.inr (.head' hpart hreach)
      · exact Or.inl hmem
    · exact ⟨.head hpart hreach, Or.inr hcycle⟩

theorem FirstReentered.leadsToCycle (hx : h.FirstReentered [] r x) : LeadsToCycle h.HasPart r := by
  obtain ⟨s, hs, -⟩ := hx
  obtain ⟨hreach, hmem | hcycle⟩ := hs.cycle
  · cases hmem
  · exact ⟨x, hreach, hcycle⟩

theorem Reenters.isCompound {s : List Nat} (hs : h.Reenters outer r s x) : h.IsCompound x := by
  induction s generalizing outer r with
  | nil => exact hs.1 ▸ hs.2.2
  | cons i s ih =>
    obtain ⟨c, -, hs⟩ := hs
    exact ih hs

theorem Reenters.unique {s : List Nat} {y : Nat} (hs : h.Reenters outer r s x)
    (hs' : h.Reenters outer r s y) : x = y := by
  induction s generalizing outer r with
  | nil => exact hs.1.symm.trans hs'.1
  | cons i s ih =>
    obtain ⟨c, hc, hs⟩ := hs
    obtain ⟨c', hc', hs'⟩ := hs'
    cases hc.symm.trans hc'
    exact ih hs hs'

theorem FirstReentered.unique {y : Nat} (hx : h.FirstReentered outer r x)
    (hy : h.FirstReentered outer r y) : x = y := by
  obtain ⟨s, hs, hfirst⟩ := hx
  obtain ⟨t, ht, hfirst'⟩ := hy
  have heq : s = t := by
    rcases hfirst t y ht with heq | hlt
    · exact heq
    · exact (hfirst' s x hs).elim Eq.symm fun hgt => absurd hgt (List.lex_asymm Nat.lt_asymm hlt)
  exact hs.unique (heq ▸ ht)

/-! The walk that copies a value. -/

/-- What the walk that is inside of `outer` is to find out about `r`. -/
def Copied (h : Heap) (outer : List Ref) (r : Ref) : Except Fault Datum → Prop
  | .ok d => h.Unfolds r d ∧ ∀ s x, ¬ h.Reenters outer r s x
  | .error fault => ∃ x, h.FirstReentered outer r x ∧ fault = h.cycleFault x

theorem Copied.unique {e e' : Except Fault Datum} (he : h.Copied outer r e)
    (he' : h.Copied outer r e') : e = e' := by
  cases e with
  | ok d =>
    cases e' with
    | ok d' => exact congrArg _ (he.1.unique he'.1)
    | error fault =>
      obtain ⟨x, ⟨s, hs, -⟩, -⟩ := he'
      exact absurd hs (he.2 s x)
  | error fault =>
    obtain ⟨x, hx, rfl⟩ := he
    cases e' with
    | ok d =>
      obtain ⟨s, hs, -⟩ := hx
      exact absurd hs (he'.2 s x)
    | error fault =>
      obtain ⟨y, hy, rfl⟩ := he'
      rw [hx.unique hy]

/-- Going through a list ends at the first element that fails. -/
theorem mapM_cases {α β : Type} (f : α → Except Fault β) (l : List α) :
    (∃ items, l.mapM f = .ok items ∧ ∀ a ∈ l, ∃ d, f a = .ok d) ∨
      ∃ (i : Nat) (a : α) (fault : Fault), l[i]? = some a ∧ f a = .error fault ∧
        l.mapM f = .error fault ∧ ∀ j < i, ∀ b, l[j]? = some b → ∃ d, f b = .ok d := by
  induction l with
  | nil => exact Or.inl ⟨[], rfl, fun a ha => nomatch ha⟩
  | cons a l ih =>
    rw [List.mapM_cons]
    cases hfirst : f a with
    | error fault => exact Or.inr ⟨0, a, fault, rfl, hfirst, rfl, fun j hj => nomatch hj⟩
    | ok d =>
      rcases ih with ⟨items, hrest, hall⟩ | ⟨i, b, fault, hb, hfault, hrest, hbefore⟩
      · exact Or.inl ⟨d :: items, by rw [hrest]; rfl, List.forall_mem_cons.mpr ⟨⟨d, hfirst⟩, hall⟩⟩
      · refine Or.inr ⟨i + 1, b, fault, hb, hfault, by rw [hrest]; rfl, fun j hj e he => ?_⟩
        cases j with
        | zero =>
          cases he
          exact ⟨d, hfirst⟩
        | succ j => exact hbefore j (Nat.lt_of_succ_lt_succ hj) e he

/-- A walk that is not inside of `r` and copies its parts one after the other finds the trees of all, or
the first datum that is come upon again. -/
theorem Copied.parts {f : Ref → Except Fault Datum} (hr : ¬ (r ∈ outer ∧ h.IsCompound r))
    (hf : ∀ c ∈ h.parts r, h.Copied (r :: outer) c (f c)) :
    (∃ items, (h.parts r).mapM f = .ok items ∧ List.Forall₂ h.Unfolds (h.parts r) items ∧
        ∀ s x, ¬ h.Reenters outer r s x) ∨
      ∃ x, (h.parts r).mapM f = .error (h.cycleFault x) ∧ h.FirstReentered outer r x := by
  rcases mapM_cases f (h.parts r) with
    ⟨items, hmap, hall⟩ | ⟨i, c, fault, hc, hfault, hmap, hbefore⟩
  · obtain ⟨hlength, hitems⟩ := List.forall₂_iff_zip.mp (forall₂_of_mapM hmap)
    refine Or.inl ⟨items, hmap, List.forall₂_iff_zip.mpr ⟨hlength, fun {c d} hcd => ?_⟩,
      fun s x hs => ?_⟩
    · have hcopied := hf c (List.of_mem_zip hcd).1
      rw [hitems hcd] at hcopied
      exact hcopied.1
    · cases s with
      | nil => exact hr ⟨hs.2.1, hs.2.2⟩
      | cons i s =>
        obtain ⟨c, hc, hs⟩ := hs
        have hmem := List.mem_of_getElem? hc
        obtain ⟨d, hd⟩ := hall c hmem
        have hcopied := hf c hmem
        rw [hd] at hcopied
        exact hcopied.2 s x hs
  · have hcopied := hf c (List.mem_of_getElem? hc)
    rw [hfault] at hcopied
    obtain ⟨x, ⟨s, hs, hfirst⟩, rfl⟩ := hcopied
    refine Or.inr ⟨x, hmap, i :: s, ⟨c, hc, hs⟩, fun t y ht => ?_⟩
    cases t with
    | nil => exact absurd ⟨ht.2.1, ht.2.2⟩ hr
    | cons j t =>
      obtain ⟨c', hc', ht⟩ := ht
      rcases Nat.lt_trichotomy i j with hlt | rfl | hgt
      · exact Or.inr (.rel hlt)
      · cases hc.symm.trans hc'
        exact (hfirst t y ht).imp (congrArg _) .cons
      · -- a part further left has a copy, so nothing is come upon again in it
        obtain ⟨d, hd⟩ := hbefore j hgt c' hc'
        have hcopied := hf c' (List.mem_of_getElem? hc')
        rw [hd] at hcopied
        exact absurd ht (hcopied.2 t y)

/-- The datum whose parts have the given copies. -/
def assemble : Object → List Datum → Datum
  | .vector _, items => .vector items
  | .tagged .., [marker, value] => .tagged marker value
  | _, [car, cdr] => .pair car cdr
  | _, _ => .null

/-- The pairs and vectors that a walk is inside of while it copies the parts of `r`. -/
def within (h : Heap) (path : Std.TreeSet Ref) (r : Ref) : Std.TreeSet Ref :=
  if h.memory.kind r = .tagged then path else path.insert r

theorem object_of_kind (hk : h.memory.kind r ∈ [.pair, .vector, .tagged]) :
    (∃ car cdr, h.object r = .pair car cdr) ∨ (∃ length, h.object r = .vector length) ∨
      ∃ marker value, h.object r = .tagged marker value := by
  unfold object Heap.kind
  simp only [List.mem_cons, List.not_mem_nil, or_false] at hk
  rcases hk with hk | hk | hk <;> simp [hk]

theorem unfolds_assemble {items : List Datum} (hk : h.memory.kind r ∈ [.pair, .vector, .tagged])
    (hitems : List.Forall₂ h.Unfolds (h.parts r) items) : h.Unfolds r (assemble (h.object r) items) := by
  unfold parts at hitems
  rcases object_of_kind hk with ⟨car, cdr, ho⟩ | ⟨length, ho⟩ | ⟨marker, value, ho⟩ <;>
    rw [ho] at hitems ⊢
  · obtain _ | ⟨hcar, _ | ⟨hcdr, _ | _⟩⟩ := hitems
    exact .pair ho hcar hcdr
  · have hlength := hitems.length_eq
    rw [List.length_map, List.length_range] at hlength
    refine .vector (hlength ▸ ho) fun i hi => ?_
    have hitem := hitems.get (by simpa [hlength] using hi) hi
    simpa using hitem
  · obtain _ | ⟨hmarker, _ | ⟨hvalue, _ | _⟩⟩ := hitems
    exact .tagged ho hmarker hvalue

theorem datumFrom_of_parts (hs : h.Sound Rules.bare) (hr : r ∈ h.records)
    (hk : h.memory.kind r ∈ [.pair, .vector, .tagged]) (hpath : path.contains r = false) :
    h.datumFrom (fuel + 1) path r =
      assemble (h.object r) <$> (h.parts r).mapM (h.datumFrom fuel (h.within path r)) := by
  have two : ∀ {f : Ref → Except Fault Datum} {a b : Ref} {g : List Datum → Datum},
      g <$> [a, b].mapM f = do return g [← f a, ← f b] := by
    intro f a b g
    cases hfirst : f a <;> cases hsecond : f b <;> simp [hfirst, hsecond]
  unfold parts within
  rcases object_of_kind hk with ⟨car, cdr, ho⟩ | ⟨length, ho⟩ | ⟨marker, value, ho⟩ <;>
    rw [datumFrom, ho]
  · simp only [hpath, (kind_of_pair ho).1, two, Bool.false_eq_true, reduceCtorEq, if_false]
    rfl
  · simp only [hpath, (kind_of_vector ho).1, Bool.false_eq_true, reduceCtorEq, if_false, List.mapM_map,
      Nat.min_eq_left (length_le hs hr ho), map_eq_pure_bind, assemble]
    rfl
  · simp only [(kind_of_tagged ho).1, if_true, two]
    rfl

theorem datumFrom_of_leaf? (hl : h.leaf? r = some d) : h.datumFrom (fuel + 1) path r = .ok d := by
  rw [datumFrom]
  unfold leaf? at hl
  cases ho : h.object r with
  | symbol | string | builtin | closure =>
    simp only [ho] at hl ⊢
    obtain ⟨name, hname, rfl⟩ := exists_of_toOption hl
    rw [hname]
    rfl
  | _ =>
    simp only [ho] at hl ⊢
    cases hl <;> rfl

theorem leaf?_not_reenters (hl : h.leaf? r = some d) (s : List Nat) : ¬ h.Reenters outer r s x := by
  intro hs
  cases s with
  | nil =>
    obtain ⟨hpair, hvector, -⟩ := object_of_leaf? hl
    obtain ⟨-, -, hk | hk⟩ := hs
    · exact hpair (h.field r 0) (h.field r 1) (by simp only [object, Heap.kind, hk])
    · exact hvector (h.field r 0) (by simp only [object, Heap.kind, hk])
  | cons i s =>
    obtain ⟨c, hc, -⟩ := hs
    rw [leaf?_parts hl] at hc
    cases hc

theorem IsPath.within (hpath : h.IsPath path outer)
    (hk : h.memory.kind r ∈ [.pair, .vector, .tagged]) :
    h.IsPath (h.within path r) (r :: outer) := by
  unfold Heap.within
  split
  next htagged => exact hpath.cons (by rintro (hr | hr) <;> cases htagged.symm.trans hr)
  next htagged =>
    simp only [List.mem_cons, List.not_mem_nil, or_false] at hk
    exact hpath.insert (hk.imp_right (Or.resolve_right · htagged))

theorem depth_within (hs : h.Sound Rules.bare) (hr : r ∈ h.records)
    (hpath : path.contains r = false) (hc : c ∈ h.parts r) (hmem : c ∈ h.records) :
    h.depth (h.within path r).contains c < h.depth path.contains r := by
  unfold within
  split
  next htagged =>
    have ho : h.object r = .tagged (h.field r 0) (h.field r 1) := by
      simp only [object, Heap.kind, htagged]
    simp only [parts, ho, List.mem_cons, List.not_mem_nil, or_false] at hc
    rcases hc with rfl | rfl
    · exact (tagged_lt hs hr ho).1
    · exact (tagged_lt hs hr ho).2
  next => exact depth_lt hs hr hpath (contains_insert path r) hmem

namespace Proper

/-- The parts of a value are values. -/
theorem mem_parts (hp : h.Proper) (hr : r ∈ h.records) (hc : c ∈ h.parts r) : h.IsValue c := by
  unfold parts at hc
  cases ho : h.object r <;> simp only [ho] at hc <;> try cases hc; done
  case pair car cdr =>
    obtain ⟨hk, rfl, rfl⟩ := kind_of_pair ho
    have hfield : ∀ k ∈ [0, 1], h.IsValue (h.memory.field r k) := fun k hmem =>
      hp.part hr (by rw [hk]; decide) (by simpa only [referenceFields, hk] using hmem)
    simp only [List.mem_cons, List.not_mem_nil, or_false] at hc
    rcases hc with rfl | rfl
    · exact hfield 0 (by decide)
    · exact hfield 1 (by decide)
  case vector length =>
    obtain ⟨hk, rfl⟩ := kind_of_vector ho
    obtain ⟨i, hi, rfl⟩ := List.mem_map.mp hc
    have hlt := List.mem_range.mp hi
    refine hp.part hr (by rw [hk]; decide) ?_
    simp only [referenceFields, hk, List.mem_range'_1]
    omega
  case tagged marker value =>
    obtain ⟨hk, rfl, rfl⟩ := kind_of_tagged ho
    have hfield : ∀ k ∈ [0, 1], h.IsValue (h.memory.field r k) := fun k hmem =>
      hp.part hr (by rw [hk]; decide) (by simpa only [referenceFields, hk] using hmem)
    simp only [List.mem_cons, List.not_mem_nil, or_false] at hc
    rcases hc with rfl | rfl
    · exact hfield 0 (by decide)
    · exact hfield 1 (by decide)

theorem symbolName_name (hp : h.Proper) (hr : r ∈ h.records)
    (hk : h.memory.kind r = .builtin ∨ h.memory.kind r = .closure) :
    ∃ name, h.symbolName (h.memory.field r 0) = .ok name := by
  have hsuits := hp.suits r hr 0
  rcases hk with hk | hk <;> simp only [referenceFields, hk] at hsuits <;>
    exact ⟨_, symbolName_eq_ok_iff.mpr ⟨hsuits (by decide) rfl, rfl⟩⟩

/-- A value is a datum that is made of others, or has a datum by itself. -/
theorem leaf_or_parts (hp : h.Proper) (hr : h.IsValue r) :
    (∃ d, h.leaf? r = some d) ∨ h.memory.kind r ∈ [.pair, .vector, .tagged] := by
  have hname := hp.symbolName_name hr.mem
  have hbinding := hr.kind
  unfold leaf? procedureName object Heap.kind
  cases hk : h.memory.kind r with
  | binding => exact absurd hk hbinding
  | pair | vector | tagged => exact Or.inr (by decide)
  | symbol =>
    obtain ⟨name, hname⟩ : ∃ name, h.symbolName r = .ok name :=
      ⟨_, symbolName_eq_ok_iff.mpr ⟨hk, rfl⟩⟩
    exact Or.inl ⟨.symbol name, by simp only [hname]; rfl⟩
  | string =>
    obtain ⟨text, htext⟩ : ∃ text, h.stringValue r = .ok text :=
      ⟨_, stringValue_eq_ok_iff.mpr ⟨hk, rfl⟩⟩
    exact Or.inl ⟨.string text, by simp only [htext]; rfl⟩
  | builtin =>
    obtain ⟨name, hname⟩ := hname (Or.inl hk)
    exact Or.inl ⟨.procedure name, by simp only [field, hname]; rfl⟩
  | closure =>
    obtain ⟨name, hname⟩ := hname (Or.inr hk)
    exact Or.inl ⟨.procedure name, by simp only [field, hname]; rfl⟩
  | _ => exact Or.inl ⟨_, rfl⟩

/-- The walk that copies a value finds out what it is to find out, if it has fuel for all that it is
not inside of. -/
theorem datumFrom_copied (hp : h.Proper) (hr : h.IsValue r) (hpath : h.IsPath path outer)
    (hfuel : h.depth path.contains r ≤ fuel) : h.Copied outer r (h.datumFrom fuel path r) := by
  induction fuel generalizing r outer path with
  | zero => exact absurd hfuel (by unfold depth; omega)
  | succ fuel ih =>
    rcases hp.leaf_or_parts hr with ⟨d, hl⟩ | hk
    · rw [datumFrom_of_leaf? hl]
      exact ⟨.leaf hl, fun s x => leaf?_not_reenters hl s⟩
    cases hmet : path.contains r with
    | true =>
      have hin := (hpath r).mp hmet
      have hcopy : h.datumFrom (fuel + 1) path r = .error (h.cycleFault r) := by
        rw [datumFrom]
        unfold cycleFault
        rcases hin.2 with hk | hk
        · simp only [object, Heap.kind, hk, hmet]
          rfl
        · simp only [object, Heap.kind, hk, hmet]
          rfl
      rw [hcopy]
      refine ⟨r, ⟨[], ⟨rfl, hin⟩, fun t _ _ => ?_⟩, rfl⟩
      cases t with
      | nil => exact Or.inl rfl
      | cons i t => exact Or.inr .nil
    | false =>
      have hout : ¬ (r ∈ outer ∧ h.IsCompound r) := fun hin =>
        absurd ((hpath r).mpr hin) (by rw [hmet]; decide)
      rw [datumFrom_of_parts hp.toSound hr.mem hk hmet]
      have hcopies : ∀ c ∈ h.parts r,
          h.Copied (r :: outer) c (h.datumFrom fuel (h.within path r) c) := fun c hc => by
        have hvalue := hp.mem_parts hr.mem hc
        have hlt := depth_within hp.toSound hr.mem hmet hc hvalue.mem
        exact ih hvalue (hpath.within hk) (by omega)
      rcases Copied.parts hout hcopies with ⟨items, hmap, hall, hno⟩ | ⟨x, hmap, hx⟩
      · rw [hmap]
        exact ⟨unfolds_assemble hk hall, hno⟩
      · rw [hmap]
        exact ⟨x, hx, rfl⟩

end Proper

end Heap

/-- A value has a copy unless it leads to a cycle. The copy is the tree that the value unfolds to; without
one, the fault tells whether a pair or a vector is the first that is come upon again. No walk is cut
short, however much fuel there is beyond the bound. -/
theorem datum_eq_ok_iff_unfolds {size : UInt32} {h : Heap} {v : Ref} (hreach : Attained size h)
    (hv : h.IsValue v) :
    (∀ fuel ≥ h.nestingBound, h.datumFrom fuel ∅ v = h.datum v) ∧
      ((∃ d, h.datum v = .ok d) ↔ ¬ LeadsToCycle h.HasPart v) ∧
      (∀ d, h.datum v = .ok d ↔ h.Unfolds v d) ∧
      (LeadsToCycle h.HasPart v → ∃ x, h.FirstReentered [] v x) ∧
      ∀ x, h.FirstReentered [] v x →
        h.memory.kind x = .pair ∧ h.datum v = .error (.wrongType "acyclic list" "cyclic list") ∨
        h.memory.kind x = .vector ∧
          h.datum v = .error (.wrongType "acyclic vector" "cyclic vector") := by
  have hp := hreach.proper
  have hcopied : ∀ fuel ≥ h.nestingBound, h.Copied [] v (h.datumFrom fuel ∅ v) := fun fuel hfuel =>
    hp.datumFrom_copied hv .empty (Nat.le_trans (depth_le hp.toSound hv.mem) hfuel)
  have hdatum : h.Copied [] v (h.datum v) := hcopied _ (Nat.le_refl _)
  refine ⟨fun fuel hfuel => (hcopied fuel hfuel).unique hdatum, ?_⟩
  cases heq : h.datum v with
  | ok d =>
    rw [heq] at hdatum
    obtain ⟨hd, hno⟩ := hdatum
    have hcycle := hd.not_leadsToCycle
    refine ⟨⟨fun _ => hcycle, fun _ => ⟨d, rfl⟩⟩, fun d' => ⟨fun hd' => ?_, fun hd' => ?_⟩,
      fun hcycle' => absurd hcycle' hcycle, ?_⟩
    · exact Except.ok.inj hd' ▸ hd
    · rw [hd.unique hd']
    · rintro x ⟨s, hs, -⟩
      exact absurd hs (hno s x)
  | error fault =>
    rw [heq] at hdatum
    obtain ⟨y, hy, rfl⟩ := hdatum
    have hcycle := hy.leadsToCycle
    refine ⟨⟨nofun, absurd hcycle⟩, fun d => ⟨nofun, fun hd => ?_⟩, fun _ => ⟨y, hy⟩, fun x hx => ?_⟩
    · exact absurd hcycle hd.not_leadsToCycle
    · obtain rfl := hx.unique hy
      obtain ⟨s, hs, -⟩ := hx
      unfold cycleFault
      exact hs.isCompound.imp (fun hk => ⟨hk, by rw [if_pos hk]⟩) fun hk => ⟨hk, by rw [hk]; rfl⟩

/-- A vector of a tagged pair, twice; the pair leads back to the tagged value. -/
def HeapOp.knot : List HeapOp :=
  [.integer 7, .cons 20 20, .tagged 20 33, .makeVector 2 46, .setCar 33 46]

theorem datum_eq_ok_iff_unfolds_knot :
    HeapOp.SensibleRun (Heap.new 0) HeapOp.knot ∧
      (HeapOp.knot.foldl HeapOp.apply (Heap.new 0)).IsValue 59 ∧
      LeadsToCycle (HeapOp.knot.foldl HeapOp.apply (Heap.new 0)).HasPart 59 ∧
      ¬ ∃ d, (HeapOp.knot.foldl HeapOp.apply (Heap.new 0)).datum 59 = .ok d := by
  have hrun : HeapOp.SensibleRun (Heap.new 0) HeapOp.knot ∧
      (HeapOp.knot.foldl HeapOp.apply (Heap.new 0)).IsValue 59 ∧
      46 ∈ (HeapOp.knot.foldl HeapOp.apply (Heap.new 0)).parts 59 ∧
      33 ∈ (HeapOp.knot.foldl HeapOp.apply (Heap.new 0)).parts 46 ∧
      46 ∈ (HeapOp.knot.foldl HeapOp.apply (Heap.new 0)).parts 33 := by decide +kernel
  obtain ⟨hrun, hvalue, hvector, htagged, hpair⟩ := hrun
  have hcycle : LeadsToCycle (HeapOp.knot.foldl HeapOp.apply (Heap.new 0)).HasPart 59 :=
    ⟨46, .single hvector, .tail (.single htagged) hpair⟩
  refine ⟨hrun, hvalue, hcycle, fun hok => ?_⟩
  exact (datum_eq_ok_iff_unfolds ((.start : Attained 0 _).foldl hrun) hvalue).2.1.mp hok hcycle

end ArenaScheme
