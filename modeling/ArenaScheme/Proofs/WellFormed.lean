import ArenaScheme.Proofs.Layout

/-! Well-formed heaps and what is live in them. Reachability starts from the roots, the symbol
table and the pinned records and follows every reference; it is stated without the collector. -/

namespace ArenaScheme

namespace Memory

theorem length_referenceFields_lt (m : Memory) (r : Nat) :
    (m.referenceFields r).length + 5 ≤ m.extent r := by
  unfold referenceFields extent
  cases m.kind r <;>
    simp only [List.length_cons, List.length_nil, List.length_range', headerSize, fieldsSize,
      closureSize, symbolSize, sequenceSize] <;> omega

theorem mem_referenceAddresses {m : Memory} {r : Nat} (h : m.extent r ≤ m.size) :
    m.referenceAddresses r = (m.referenceFields r).map (fieldAddress r) := by
  unfold referenceAddresses referenceSpan referenceFields
  cases hk : m.kind r with
  | vector =>
    have hle : m.field r 0 ≤ m.size := by
      simp only [extent, hk, sequenceSize, fieldsSize] at h
      omega
    simp only [Nat.min_eq_left hle, List.range'_eq_map_range, List.map_map]
    rfl
  | _ => rfl

theorem references_eq {m : Memory} {r : Nat} (h : m.extent r ≤ m.size) :
    m.references r = ((m.referenceFields r).map (m.field r)).filter (· != absent) := by
  rw [references, mem_referenceAddresses h, List.map_map]
  rfl

end Memory

namespace Heap

/-- The records of the heap, in order. -/
def records (h : Heap) : List Ref := (h.memory.starts h.top).toList

/-- Records fill the heap up to its top, and what should lead to a record does. -/
structure WellFormed (h : Heap) : Prop where
  top_le : h.top ≤ h.capacity
  capacity_le : h.capacity ≤ maxSize
  tiled : h.memory.Tiled h.top 0 h.records
  unmarked : ∀ r ∈ h.records, h.memory.isMarked r = false
  reference : ∀ r ∈ h.records, ∀ k ∈ h.memory.referenceFields r,
    h.memory.field r k = absent ∨ h.memory.field r k ∈ h.records
  root : ∀ r ∈ h.roots, r ∈ h.records
  symbols : h.symbols = absent ∨ h.symbols ∈ h.records

/-- Whether a collection must keep a record. -/
inductive Live (h : Heap) : Ref → Prop
  | root {r : Ref} : r ∈ h.roots → Live h r
  | symbols : h.symbols ≠ absent → Live h h.symbols
  | pinned {r : Ref} : r ∈ h.records → h.memory.isPinned r = true → Live h r
  | field {r : Ref} {k : Nat} : Live h r → k ∈ h.memory.referenceFields r →
    h.memory.field r k ≠ absent → Live h (h.memory.field r k)

theorem records_eq {h : Heap} {rs : List Nat} (ht : h.memory.Tiled h.top 0 rs)
    (htop : h.top ≤ maxSize) : h.records = rs := by
  have hlt : h.top < 4294967296 := by unfold maxSize at htop; omega
  simp only [records, ht.starts_eq hlt, List.toList_toArray]

namespace WellFormed

variable {h : Heap}

instance (h : Heap) : Decidable h.WellFormed :=
  decidable_of_iff
    ((h.top ≤ h.capacity ∧ h.capacity ≤ maxSize ∧ h.memory.Tiled h.top 0 h.records) ∧
      (∀ r ∈ h.records, h.memory.isMarked r = false) ∧
      (∀ r ∈ h.records, ∀ k ∈ h.memory.referenceFields r,
        h.memory.field r k = absent ∨ h.memory.field r k ∈ h.records) ∧
      (∀ r ∈ h.roots, r ∈ h.records) ∧ (h.symbols = absent ∨ h.symbols ∈ h.records))
    ⟨fun ⟨⟨h1, h2, h3⟩, h4, h5, h6, h7⟩ => ⟨h1, h2, h3, h4, h5, h6, h7⟩,
      fun wf => ⟨⟨wf.top_le, wf.capacity_le, wf.tiled⟩, wf.unmarked, wf.reference, wf.root,
        wf.symbols⟩⟩

theorem top_le_max (wf : h.WellFormed) : h.top ≤ maxSize := Nat.le_trans wf.top_le wf.capacity_le

theorem top_lt (wf : h.WellFormed) : h.top < 4294967296 := by
  have := wf.top_le_max
  unfold maxSize at this
  omega

theorem lt_top (wf : h.WellFormed) {r : Nat} (hr : r ∈ h.records) : r < h.top :=
  wf.tiled.lt_top hr

/-- No record starts where the absent reference would lead. -/
theorem ne_absent (wf : h.WellFormed) {r : Nat} (hr : r ∈ h.records) : r ≠ absent := by
  have hlt := wf.lt_top hr
  have htop := wf.top_le_max
  unfold maxSize at htop
  unfold absent
  omega

theorem live_mem (wf : h.WellFormed) {r : Ref} (hr : h.Live r) : r ∈ h.records := by
  induction hr with
  | root hr => exact wf.root _ hr
  | symbols hne => exact wf.symbols.resolve_left hne
  | pinned hr _ => exact hr
  | field _ hk hne ih => exact (wf.reference _ ih _ hk).resolve_left hne

end WellFormed


end Heap


end ArenaScheme
