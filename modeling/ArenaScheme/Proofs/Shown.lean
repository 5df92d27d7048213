import ArenaScheme.Proofs.Copies
import ArenaScheme.Proofs.Interning

/-! Which datum a record shows. Unlike the walk that copies a value, the relation needs no fuel and
no path: it holds of finite data only. Records that stand for each other show the same data, so
moving records and adding others changes nothing that the roots show; and a record that shows a
datum has it as its copy. -/

namespace ArenaScheme

open Memory Heap

/-- The datum of an object that has no parts. -/
def Object.datum? : Object → Option Datum
  | integer value => some (.integer value)
  | float bits => some (.float bits)
  | boolean value => some (.boolean value)
  | char value => some (.char value)
  | null => some .null
  | eof => some .eof
  | _ => none

namespace Heap

/-- The characters of the string at `r`. -/
def characters (h : Heap) (r : Ref) : List Char :=
  (List.range (h.field r 0)).map fun i => charOfCode (h.field r (1 + i))

theorem stringValue_eq_ok_iff {h : Heap} {r : Ref} {text : String} :
    h.stringValue r = .ok text ↔ h.memory.kind r = .string ∧ String.ofList (h.characters r) = text := by
  unfold stringValue stringLength expectKind Heap.kind
  by_cases hk : h.memory.kind r = .string
  · rw [if_pos hk]
    simp only [bind, Except.bind, pure, Except.pure, Except.ok.injEq, hk, true_and]
    rfl
  · rw [if_neg hk]
    simp only [bind, Except.bind, hk, false_and, reduceCtorEq]

/-- The record at a place is the datum, down to its parts. -/
inductive Shows (h : Heap) : Nat → Datum → Prop
  | plain {r : Nat} {d : Datum} : (h.object r).datum? = some d → Shows h r d
  | symbol {r : Nat} {name : String} : h.symbolName r = .ok name → Shows h r (.symbol name)
  | string {r : Nat} {text : String} : h.stringValue r = .ok text → Shows h r (.string text)
  | pair {r car cdr : Nat} {a d : Datum} : h.object r = .pair car cdr → Shows h car a →
    Shows h cdr d → Shows h r (.pair a d)
  | vector {r : Nat} {items : List Datum} : h.object r = .vector items.length →
    (∀ i (hi : i < items.length), Shows h (h.field r (1 + i)) items[i]) → Shows h r (.vector items)

end Heap

/-- The kinds of the records whose objects do not refer to records. -/
def Kind.isClosed : Kind → Bool
  | integer | float | string | char | vector | truth | falsity | null | eof => true
  | symbol | pair | builtin | closure | environment | binding | tagged => false

/-! Records that stand for each other. -/

namespace Memory.Matches

variable {link : Nat → Nat → Prop} {h g : Heap} {r s : Nat}

theorem object_eq (hm : Matches link h.memory r g.memory s)
    (hk : (h.memory.kind r).isClosed = true) : g.object s = h.object r := by
  have hfield : ∀ k, k ∉ h.memory.referenceFields r → 9 + 4 * k ≤ h.memory.extent r →
      g.field s k = h.field r k := fun k hout hend => hm.field hout hend
  unfold Heap.object Heap.kind Heap.payload
  rw [hm.kind]
  unfold Memory.extent Memory.referenceFields sequenceSize fieldsSize at hfield
  generalize h.memory.kind r = kind at hk hfield
  cases kind with
  | integer | float =>
    simp only
    rw [hfield 0 (by simp) (by simp), hfield 1 (by simp) (by simp)]
  | char =>
    simp only
    rw [hfield 0 (by simp) (by simp)]
  | string | vector =>
    simp only at hfield ⊢
    rw [hfield 0 (by simp) (by omega)]
  | truth | falsity | null | eof => rfl
  | symbol | pair | builtin | closure | environment | binding | tagged => cases hk

theorem characters_eq (hm : Matches link h.memory r g.memory s) (hk : h.memory.kind r = .string) :
    g.characters s = h.characters r := by
  have hout : ∀ k, k ∉ h.memory.referenceFields r := fun k => by
    simp [Memory.referenceFields, hk]
  have hfield : ∀ k ≤ h.memory.field r 0, g.memory.field s k = h.memory.field r k :=
    fun k hle => hm.field (hout k) (by
      simp only [Memory.extent, hk, sequenceSize, fieldsSize]
      omega)
  have hlength : g.field s 0 = h.field r 0 := hfield 0 (Nat.zero_le _)
  unfold Heap.characters
  rw [hlength]
  refine List.map_congr_left fun i hi => congrArg charOfCode (hfield (1 + i) ?_)
  have hi' : i < h.memory.field r 0 := List.mem_range.mp hi
  omega

end Memory.Matches

namespace Heap

variable {rules : Rules} {link : Nat → Nat → Prop} {h g : Heap} {r s n : Nat} {d : Datum}

theorem kind_of_datum? (ho : (h.object r).datum? = some d) :
    (h.memory.kind r).isClosed = true := by
  unfold object Heap.kind at ho
  cases hk : h.memory.kind r <;> simp only [hk] at ho <;> first | rfl | cases ho

theorem field_mem_vector (hs : h.Sound rules) (hr : r ∈ h.records) {length i : Nat}
    (ho : h.object r = .vector length) (hi : i < length) : h.field r (1 + i) ∈ h.records := by
  obtain ⟨hk, rfl⟩ := kind_of_vector ho
  rcases hs.allowed r hr (1 + i) (by
    simp only [Memory.referenceFields, hk, List.mem_range'_1]
    omega) with ⟨-, hmay⟩ | ⟨hmem, -⟩
  · rw [hk] at hmay
    cases hmay
  · exact hmem

/-- What records show goes with them. -/
theorem Shows.carry (hd : h.Shows r d) (hs : h.Sound rules) (hc : Carries link h g)
    (hr : r ∈ h.records) (hlink : link r s) : g.Shows s d := by
  -- a field that leads to a record leads to one that stands for it
  have hfield : ∀ {r s k}, r ∈ h.records → link r s → (h.memory.kind r).inTrees = false →
      k ∈ h.memory.referenceFields r → h.memory.field r k ∈ h.records →
      link (h.memory.field r k) (g.memory.field s k) := fun hr hlink hk hmem hfield =>
    ((hc.data _ hr _ hlink hk).reference _ hmem).resolve_left fun habs =>
      hs.wf.ne_absent hfield habs.1
  induction hd generalizing s with
  | plain ho =>
    have hk := kind_of_datum? ho
    have hm := hc.data _ hr _ hlink (by revert hk; cases h.memory.kind _ <;> decide)
    exact .plain (by rw [hm.object_eq hk, ho])
  | symbol ho =>
    rw [symbolName_eq_ok_iff] at ho
    obtain ⟨hkind, hname⟩ := hc.symbol _ hr _ hlink ho.1
    exact .symbol (symbolName_eq_ok_iff.mpr ⟨hkind, by rw [hname, ho.2]⟩)
  | string ho =>
    rw [stringValue_eq_ok_iff] at ho
    have hm := hc.data _ hr _ hlink (by rw [ho.1]; rfl)
    exact .string (stringValue_eq_ok_iff.mpr
      ⟨hm.kind.trans ho.1, by rw [hm.characters_eq ho.1, ho.2]⟩)
  | @pair r _ _ _ _ ho _ _ ihcar ihcdr =>
    obtain ⟨hk, rfl, rfl⟩ := kind_of_pair ho
    have htree : (h.memory.kind r).inTrees = false := by rw [hk]; rfl
    have hcar := hs.pair_field_mem hr hk (k := 0) (by decide)
    have hcdr := hs.pair_field_mem hr hk (k := 1) (by decide)
    have hm := hc.data _ hr _ hlink htree
    refine @Shows.pair g s (g.memory.field s 0) (g.memory.field s 1) _ _ ?_
      (ihcar hcar (hfield hr hlink htree (by rw [pair_references hk]; decide) hcar))
      (ihcdr hcdr (hfield hr hlink htree (by rw [pair_references hk]; decide) hcdr))
    unfold object Heap.kind
    rw [hm.kind, hk]
    rfl
  | @vector r items ho _ ih =>
    obtain ⟨hk, hlength⟩ := kind_of_vector ho
    have htree : (h.memory.kind r).inTrees = false := by rw [hk]; rfl
    have hm := hc.data _ hr _ hlink htree
    refine .vector (by rw [hm.object_eq (by rw [hk]; rfl), ho]) fun i hi => ?_
    have hmem := field_mem_vector hs hr ho hi
    refine ih i hi hmem (hfield hr hlink htree ?_ hmem)
    simp only [Memory.referenceFields, hk, List.mem_range'_1]
    omega

theorem Shows.relocate {kept : Nat → Prop} {place : Nat → Nat} (hd : h.Shows r d)
    (hs : h.Sound rules) (hr : h.Relocation kept place g) (hkept : kept r) :
    g.Shows (place r) d :=
  hd.carry hs hr.carries (hr.mem r hkept) ⟨hkept, rfl⟩

variable {may : Effect → Prop} {i : Nat}

/-- The roots that stay in place go on to show what they show, unless something is updated. -/
theorem Change.shows_root (hc : h.Change rules n may g) (hs : h.Sound rules) (ht : h.Indexed)
    (hn : n ≤ h.roots.size) (hmay : ¬ may .update) (hi : i < n) (hd : h.Shows (h.root i) d) :
    g.Shows (g.root i) d := by
  have hlt : i < h.roots.size := Nat.lt_of_lt_of_le hi hn
  rcases hc.same hs ht hmay with ⟨kept, place, hmove⟩ | ⟨hroot, hcarries⟩
  · rw [hmove.root_eq hlt]
    exact hd.relocate hs hmove (hmove.root _ (root_mem hlt))
  · rw [hroot i hi]
    exact hd.carry hs hcarries (hs.wf.root _ (root_mem hlt)) rfl

theorem Evolves.shows_root (he : Evolves rules n may h g) (ht : h.Indexed) (hmay : ¬ may .update)
    (hi : i < n) (hd : h.Shows (h.root i) d) : g.Shows (g.root i) d := by
  induction he with
  | refl _ _ => exact hd
  | step hs hn hc _ ih => exact ih (hc.indexed hs ht) (hc.shows_root hs ht hn hmay hi hd)

/-! A record shows one datum at most, and that is its copy. -/

theorem object_of_symbolName {name : String} (ho : h.symbolName r = .ok name) :
    h.object r = .symbol := by
  have hk := (symbolName_eq_ok_iff.mp ho).1
  simp only [object, Heap.kind, hk]

theorem object_of_stringValue {text : String} (ho : h.stringValue r = .ok text) :
    h.object r = .string (h.field r 0) := by
  have hk := (stringValue_eq_ok_iff.mp ho).1
  simp only [object, Heap.kind, hk]

theorem Shows.unique {d' : Datum} (hd : h.Shows r d) (hd' : h.Shows r d') : d = d' := by
  induction hd generalizing d' with
  | plain ho =>
    cases hd' with
    | plain ho' => exact Option.some.inj (ho.symm.trans ho')
    | symbol ho' => rw [object_of_symbolName ho'] at ho; cases ho
    | string ho' => rw [object_of_stringValue ho'] at ho; cases ho
    | pair ho' _ _ => rw [ho'] at ho; cases ho
    | vector ho' _ => rw [ho'] at ho; cases ho
  | symbol ho =>
    cases hd' with
    | plain ho' => rw [object_of_symbolName ho] at ho'; cases ho'
    | symbol ho' => rw [Except.ok.inj (ho.symm.trans ho')]
    | string ho' => cases (object_of_symbolName ho).symm.trans (object_of_stringValue ho')
    | pair ho' _ _ => rw [object_of_symbolName ho] at ho'; cases ho'
    | vector ho' _ => rw [object_of_symbolName ho] at ho'; cases ho'
  | string ho =>
    cases hd' with
    | plain ho' => rw [object_of_stringValue ho] at ho'; cases ho'
    | symbol ho' => cases (object_of_symbolName ho').symm.trans (object_of_stringValue ho)
    | string ho' => rw [Except.ok.inj (ho.symm.trans ho')]
    | pair ho' _ _ => rw [object_of_stringValue ho] at ho'; cases ho'
    | vector ho' _ => rw [object_of_stringValue ho] at ho'; cases ho'
  | pair ho _ _ ihcar ihcdr =>
    cases hd' with
    | plain ho' => rw [ho] at ho'; cases ho'
    | symbol ho' => rw [object_of_symbolName ho'] at ho; cases ho
    | string ho' => rw [object_of_stringValue ho'] at ho; cases ho
    | pair ho' hcar hcdr =>
      rw [ho] at ho'
      cases ho'
      rw [ihcar hcar, ihcdr hcdr]
    | vector ho' _ => rw [ho] at ho'; cases ho'
  | vector ho _ ih =>
    cases hd' with
    | plain ho' => rw [ho] at ho'; cases ho'
    | symbol ho' => rw [object_of_symbolName ho'] at ho; cases ho
    | string ho' => rw [object_of_stringValue ho'] at ho; cases ho
    | pair ho' _ _ => rw [ho] at ho'; cases ho'
    | vector ho' hitems =>
      rw [ho] at ho'
      have hlength := Object.vector.inj ho'
      exact congrArg Datum.vector (List.ext_getElem hlength fun i hi hi' => ih i hi (hitems i hi'))

theorem mapM_eq_ok {α β : Type} {f : α → Except Fault β} {l : List α} {items : List β}
    (hlength : l.length = items.length)
    (hitem : ∀ i (hi : i < l.length) (hi' : i < items.length), f l[i] = .ok items[i]) :
    l.mapM f = .ok items := by
  induction l generalizing items with
  | nil =>
    obtain rfl := List.length_eq_zero_iff.mp hlength.symm
    rfl
  | cons x l ih =>
    cases items with
    | nil => cases hlength
    | cons y items =>
      have hfirst : f x = .ok y := hitem 0 (by simp) (by simp)
      have hrest := ih (Nat.succ.inj hlength) fun i hi hi' =>
        hitem (i + 1) (Nat.succ_lt_succ hi) (Nat.succ_lt_succ hi')
      rw [List.mapM_cons, hfirst, hrest]
      rfl

/-! A walk keeps a set of the pairs and vectors that it is inside of. -/

variable {path : Std.TreeSet Ref} {outer : List Ref}

/-- The data that can be made to contain themselves. -/
def IsCompound (h : Heap) (r : Ref) : Prop := h.memory.kind r = .pair ∨ h.memory.kind r = .vector

/-- The path of a walk consists of the pairs and vectors among the data that it is inside of. -/
def IsPath (h : Heap) (path : Std.TreeSet Ref) (outer : List Ref) : Prop :=
  ∀ x, path.contains x = true ↔ x ∈ outer ∧ h.IsCompound x

namespace IsPath

theorem empty : h.IsPath ∅ [] := by
  intro x
  simp

theorem not_contains (hpath : h.IsPath path outer) (hr : ¬ (r ∈ outer ∧ h.IsCompound r)) :
    path.contains r = false := by
  cases hmet : path.contains r with
  | false => rfl
  | true => exact absurd ((hpath r).mp hmet) hr

theorem insert (hpath : h.IsPath path outer) (hr : h.IsCompound r) :
    h.IsPath (path.insert r) (r :: outer) := by
  intro x
  rw [contains_insert, Bool.or_eq_true, beq_iff_eq, hpath x, List.mem_cons, or_and_right]
  refine or_congr ⟨?_, fun heq => heq.1.symm⟩ Iff.rfl
  rintro rfl
  exact ⟨rfl, hr⟩

theorem cons (hpath : h.IsPath path outer) (hr : ¬ h.IsCompound r) : h.IsPath path (r :: outer) := by
  intro x
  rw [hpath x, List.mem_cons]
  refine and_congr_left fun hx => (or_iff_right ?_).symm
  rintro rfl
  exact hr hx

end IsPath

theorem isCompound_of_pair {car cdr : Ref} (ho : h.object r = .pair car cdr) : h.IsCompound r :=
  Or.inl (kind_of_pair ho).1

theorem isCompound_of_vector {length : Nat} (ho : h.object r = .vector length) : h.IsCompound r :=
  Or.inr (kind_of_vector ho).1

/-- The data that a walk is inside of show larger trees than `d`. -/
def Inside (h : Heap) (outer : List Ref) (d : Datum) : Prop :=
  ∀ x ∈ outer, ∃ d', h.Shows x d' ∧ sizeOf d < sizeOf d'

namespace Inside

theorem empty (d : Datum) : h.Inside [] d := nofun

/-- A walk does not come upon a record again. -/
theorem not_mem (hp : h.Inside outer d) (hd : h.Shows r d) : r ∉ outer := by
  intro hr
  obtain ⟨d', hd', hlt⟩ := hp r hr
  rw [hd.unique hd'] at hlt
  exact Nat.lt_irrefl _ hlt

theorem cons {part : Datum} (hp : h.Inside outer d) (hd : h.Shows r d)
    (hlt : sizeOf part < sizeOf d) : h.Inside (r :: outer) part := by
  intro x hx
  rcases List.mem_cons.mp hx with rfl | hx
  · exact ⟨d, hd, hlt⟩
  · obtain ⟨d', hd', hlt'⟩ := hp x hx
    exact ⟨d', hd', Nat.lt_trans hlt hlt'⟩

end Inside

theorem exists_fuel {fuel : Nat} {met : Nat → Bool} (hfuel : h.depth met r ≤ fuel) :
    ∃ rest, fuel = rest + 1 :=
  ⟨fuel - 1, by unfold depth at hfuel; omega⟩

/-- What a record shows is found by the walk that copies it. -/
theorem Shows.datumFrom_eq (hd : h.Shows r d) (hs : h.Sound rules) {fuel : Nat}
    (hr : r ∈ h.records) (hfuel : h.depth path.contains r ≤ fuel) (hpath : h.IsPath path outer)
    (hinside : h.Inside outer d) : h.datumFrom fuel path r = .ok d := by
  induction hd generalizing fuel path outer with
  | @plain r d ho =>
    obtain ⟨fuel, rfl⟩ := exists_fuel hfuel
    rw [Heap.datumFrom]
    cases hobject : h.object r <;> rw [hobject] at ho <;> cases ho <;> rfl
  | @symbol r name ho =>
    obtain ⟨fuel, rfl⟩ := exists_fuel hfuel
    rw [Heap.datumFrom, object_of_symbolName ho]
    simp only [ho]
    rfl
  | @string r text ho =>
    obtain ⟨fuel, rfl⟩ := exists_fuel hfuel
    rw [Heap.datumFrom, object_of_stringValue ho]
    simp only [ho]
    rfl
  | @pair r car cdr a d ho hcar hcdr ihcar ihcdr =>
    obtain ⟨fuel, rfl⟩ := exists_fuel hfuel
    have hd := Shows.pair ho hcar hcdr
    have hmet := hpath.not_contains fun hin => hinside.not_mem hd hin.1
    have hinsert := hpath.insert (isCompound_of_pair ho)
    obtain ⟨hk, rfl, rfl⟩ := kind_of_pair ho
    have hmem := hs.pair_field_mem hr hk (k := 0) (by decide)
    have hmem' := hs.pair_field_mem hr hk (k := 1) (by decide)
    have hlt := depth_lt hs hr hmet (contains_insert path r) hmem
    have hlt' := depth_lt hs hr hmet (contains_insert path r) hmem'
    have hfirst := @ihcar (path.insert r) (r :: outer) fuel hmem (by omega) hinsert
      (hinside.cons hd (by simp only [Datum.pair.sizeOf_spec]; omega))
    have hsecond := @ihcdr (path.insert r) (r :: outer) fuel hmem' (by omega) hinsert
      (hinside.cons hd (by simp only [Datum.pair.sizeOf_spec]; omega))
    rw [Heap.datumFrom, ho]
    simp only [hmet, hfirst, hsecond]
    rfl
  | @vector r items ho hitems ih =>
    obtain ⟨fuel, rfl⟩ := exists_fuel hfuel
    have hd := Shows.vector ho hitems
    have hmet := hpath.not_contains fun hin => hinside.not_mem hd hin.1
    have hmap : (List.range items.length).mapM
        (fun i => h.datumFrom fuel (path.insert r) (h.field r (1 + i))) = .ok items := by
      refine mapM_eq_ok (List.length_range) fun i hi hi' => ?_
      rw [List.getElem_range]
      have hmem := field_mem_vector hs hr ho hi'
      have hlt := depth_lt hs hr hmet (contains_insert path r) hmem
      refine ih i hi' hmem (by omega) (hpath.insert (isCompound_of_vector ho)) (hinside.cons hd ?_)
      have := List.sizeOf_lt_of_mem (List.getElem_mem hi')
      simp only [Datum.vector.sizeOf_spec]
      omega
    rw [Heap.datumFrom, ho]
    simp only [hmet, Nat.min_eq_left (length_le hs hr ho), hmap]
    rfl

/-- The datum of a record is what it shows. -/
theorem Shows.datum_eq (hd : h.Shows r d) (hs : h.Sound rules) (hr : r ∈ h.records) :
    h.datum r = .ok d :=
  hd.datumFrom_eq hs hr (depth_le hs hr) .empty (.empty d)

end Heap

end ArenaScheme
