import ArenaScheme.Heap.Collection
import ArenaScheme.Proofs.Bytes

/-! How records lie in memory. `extent` is the size of a record as a number without bound, `Tiled`
says that records stand end to end, and `SameBody` that a record has the kind and the contents of
another one; what marks and forwarding fields hold is left open. -/

namespace ArenaScheme

variable {m n : Memory} {k r s : Nat}

namespace Memory

/-- The number of bytes of the record at `r`, header included, of whatever size. -/
def extent (m : Memory) (r : Ref) : Nat :=
  match m.kind r with
  | .null | .truth | .falsity | .eof => headerSize
  | .char => fieldsSize 1
  | .integer | .float | .pair | .builtin | .environment | .tagged => fieldsSize 2
  | .binding => fieldsSize 4
  | .closure => closureSize
  | .symbol => symbolSize (m.field r 3)
  | .string | .vector => sequenceSize (m.field r 0)

/-- The fields of the record at `r` that hold references. -/
def referenceFields (m : Memory) (r : Ref) : List Nat :=
  match m.kind r with
  | .symbol | .pair | .environment | .tagged => [0, 1]
  | .closure | .binding => [0, 1, 2, 3]
  | .builtin => [0]
  | .vector => List.range' 1 (m.field r 0)
  | .integer | .float | .char | .string | .truth | .falsity | .null | .eof => []

/-- Whether the byte number `i` of the record at `r` belongs to a reference. -/
def InReference (m : Memory) (r : Ref) (i : Nat) : Prop :=
  ∃ k ∈ m.referenceFields r, 5 + 4 * k ≤ i ∧ i < 9 + 4 * k

/-- From `r` up to `top` records stand end to end, and they start at `rs`. -/
inductive Tiled (m : Memory) (top : Nat) : Nat → List Nat → Prop
  | done : Tiled m top top []
  | record {r : Nat} {rs : List Nat} :
    Tiled m top (r + m.extent r) rs → Tiled m top r (r :: rs)

/-- The record at `s` in `n` has the kind and the contents of the record at `r` in `m`. -/
structure SameBody (m : Memory) (r : Nat) (n : Memory) (s : Nat) : Prop where
  kind : n.kind s = m.kind r
  body : ∀ i, 5 ≤ i → i < m.extent r → n.byte (s + i) = m.byte (r + i)

theorem fieldAddress_eq (r k : Nat) : fieldAddress r k = r + 5 + 4 * k := rfl

theorem five_le_extent (m : Memory) (r : Nat) : 5 ≤ m.extent r := by
  unfold extent
  cases m.kind r <;> simp only [headerSize, fieldsSize, closureSize, symbolSize, sequenceSize] <;>
    omega

theorem recordSize_eq_mod (m : Memory) (r : Nat) :
    m.recordSize r = m.extent r % 4294967296 := by
  unfold recordSize extent
  cases m.kind r <;> rfl

theorem recordSize_eq (m : Memory) (r : Nat) (h : m.extent r < 4294967296) :
    m.recordSize r = m.extent r := by
  rw [recordSize_eq_mod, Nat.mod_eq_of_lt h]

/-- A reference field lies inside its record. -/
theorem field_end_le_extent (h : k ∈ m.referenceFields r) : 9 + 4 * k ≤ m.extent r := by
  unfold referenceFields at h
  unfold extent
  cases hk : m.kind r <;>
    simp only [hk, List.mem_cons, List.not_mem_nil, or_false, List.mem_range'_1] at h <;>
    simp only [fieldsSize, closureSize, symbolSize, sequenceSize] <;> omega

theorem kind_eq_of_byte (h : n.byte s = m.byte r) : n.kind s = m.kind r := by
  rw [kind, kind, h]

theorem isPinned_eq_of_byte (h : n.byte s = m.byte r) : n.isPinned s = m.isPinned r := by
  rw [isPinned, isPinned, h]

theorem isMarked_eq_of_byte (h : n.byte s = m.byte r) : n.isMarked s = m.isMarked r := by
  rw [isMarked, isMarked, h]

theorem isMarked_iff (m : Memory) (r : Nat) : m.isMarked r = true ↔ 128 ≤ (m.byte r).toNat := by
  simp [isMarked]

theorem not_isMarked_iff (m : Memory) (r : Nat) :
    m.isMarked r = false ↔ (m.byte r).toNat < 128 := by
  simp [isMarked]

namespace SameBody

theorem refl (m : Memory) (r : Nat) : SameBody m r m r := ⟨rfl, fun _ _ _ => rfl⟩

variable {m n : Memory} {r s : Nat}

section

variable (h : SameBody m r n s)
include h

theorem field (k : Nat) (hk : 9 + 4 * k ≤ m.extent r) :
    n.field s k = m.field r k := by
  refine word_congr fun i hi => ?_
  have hb := h.body (5 + 4 * k + i) (by omega) (by omega)
  simpa only [fieldAddress, Nat.add_assoc] using hb

/-- The length field of a string or a vector. -/
theorem length (hk : m.kind r = .string ∨ m.kind r = .vector) :
    n.field s 0 = m.field r 0 := by
  refine h.field 0 ?_
  rcases hk with hk | hk <;> simp only [Memory.extent, hk, sequenceSize, fieldsSize] <;> omega

/-- The length field of a symbol. -/
theorem nameLength (hk : m.kind r = .symbol) :
    n.field s 3 = m.field r 3 := by
  refine h.field 3 ?_
  simp only [Memory.extent, hk, symbolSize, fieldsSize]
  omega

theorem extent : n.extent s = m.extent r := by
  unfold Memory.extent
  rw [h.kind]
  cases hk : m.kind r with
  | symbol => simp only [h.nameLength hk]
  | string => simp only [h.length (Or.inl hk)]
  | vector => simp only [h.length (Or.inr hk)]
  | _ => rfl

theorem referenceFields : n.referenceFields s = m.referenceFields r := by
  unfold Memory.referenceFields
  rw [h.kind]
  cases hk : m.kind r with
  | vector => simp only [h.length (Or.inr hk)]
  | _ => rfl

theorem reference (hk : k ∈ m.referenceFields r) :
    n.field s k = m.field r k := h.field k (field_end_le_extent hk)

end

/-- Two memories hold the same record where they agree on its bytes. -/
theorem of_bytes (h : ∀ i < m.extent r, n.byte (s + i) = m.byte (r + i)) : SameBody m r n s := by
  have hpos := five_le_extent m r
  refine ⟨kind_eq_of_byte ?_, fun i _ hlt => h i hlt⟩
  simpa using h 0 (by omega)

end SameBody

namespace Tiled

variable {m : Memory} {top r p q : Nat} {rs : List Nat}

theorem cons_iff {q : Nat} :
    Tiled m top r (q :: rs) ↔ r = q ∧ Tiled m top (r + m.extent r) rs :=
  ⟨fun h => by cases h with | record hrest => exact ⟨rfl, hrest⟩, fun ⟨hq, h⟩ => hq ▸ .record h⟩

theorem nil_iff : Tiled m top r [] ↔ r = top :=
  ⟨fun h => by cases h; rfl, fun h => h ▸ .done⟩

section

variable (h : Tiled m top r rs)
include h

theorem le : r ≤ top := by
  induction h with
  | done => exact Nat.le_refl _
  | record _ ih => omega

theorem bounds (hp : p ∈ rs) : r ≤ p ∧ p + m.extent p ≤ top := by
  induction h with
  | done => simp at hp
  | @record r rs hrest ih =>
    rcases List.mem_cons.mp hp with rfl | hp'
    · exact ⟨Nat.le_refl _, hrest.le⟩
    · have := ih hp'
      omega

theorem lt_top (hp : p ∈ rs) : p < top := by
  have := (h.bounds hp).2
  have := five_le_extent m p
  omega

/-- A record ends before every later one starts. -/
theorem end_le (hp : p ∈ rs) (hq : q ∈ rs) (hlt : p < q) :
    p + m.extent p ≤ q := by
  induction h with
  | done => simp at hp
  | @record r rs hrest ih =>
    rcases List.mem_cons.mp hp with rfl | hp'
    · rcases List.mem_cons.mp hq with rfl | hq'
      · omega
      · exact (hrest.bounds hq').1
    · rcases List.mem_cons.mp hq with rfl | hq'
      · have := (hrest.bounds hp').1
        omega
      · exact ih hp' hq'

theorem apart (hp : p ∈ rs) (hq : q ∈ rs) (hne : p ≠ q) :
    p + m.extent p ≤ q ∨ q + m.extent q ≤ p := by
  rcases Nat.lt_or_gt_of_ne hne with hlt | hlt
  · exact Or.inl (h.end_le hp hq hlt)
  · exact Or.inr (h.end_le hq hp hlt)

theorem pairwise_lt : rs.Pairwise (· < ·) := by
  induction h with
  | done => exact List.Pairwise.nil
  | @record r rs hrest ih =>
    refine List.Pairwise.cons (fun q hq => ?_) ih
    have := (hrest.bounds hq).1
    have := five_le_extent m r
    omega

theorem nodup : rs.Nodup :=
  h.pairwise_lt.imp fun hlt heq => by omega

theorem congr (he : ∀ p ∈ rs, n.extent p = m.extent p) :
    Tiled n top r rs := by
  induction h with
  | done => exact Tiled.done
  | @record r rs hrest ih =>
    refine Tiled.record ?_
    rw [he r List.mem_cons_self]
    exact ih fun p hp => he p (List.mem_cons_of_mem _ hp)

/-- A record that is put at the top follows all others. -/
theorem snoc {size : Nat} (hsize : m.extent top = size) :
    Tiled m (top + size) r (rs ++ [top]) := by
  induction h with
  | done =>
    refine Tiled.record ?_
    rw [hsize]
    exact Tiled.done
  | record _ ih => exact Tiled.record ih

theorem length_le : r + 5 * rs.length ≤ top := by
  induction h with
  | done => simp
  | @record r rs hrest ih =>
    have := five_le_extent m r
    simp only [List.length_cons]
    omega

theorem startsFrom_eq (htop : top < 4294967296) (fuel : Nat) (hfuel : top ≤ r + fuel)
    (found : Array Ref) :
    m.startsFrom top fuel r found = found ++ rs.toArray := by
  induction h generalizing fuel found with
  | done => cases fuel <;> simp [startsFrom]
  | @record r rs hrest ih =>
    have hpos := five_le_extent m r
    have hle := hrest.le
    cases fuel with
    | zero => omega
    | succ fuel =>
      have hlt : r < top := by omega
      rw [startsFrom, if_pos hlt, recordSize_eq m r (by omega), ih fuel (by omega)]
      simp

end

theorem starts_eq (h : Tiled m top 0 rs) (htop : top < 4294967296) :
    m.starts top = rs.toArray := by
  rw [starts, h.startsFrom_eq htop top (by omega)]
  simp

/-- Two tilings whose records correspond one to one, in order and with equal sizes, are of the
same length. -/
theorem length_eq_of_rel {top' : Nat} {ss : List Nat} {rel : Nat → Nat → Prop}
    (h : Tiled m top r rs) (g : Tiled n top' s ss) (hleft : ∀ p ∈ rs, ∃ q ∈ ss, rel p q)
    (hright : ∀ q ∈ ss, ∃ p ∈ rs, rel p q) (horder : ∀ a b c d, rel a b → rel c d → (a < c ↔ b < d))
    (hextent : ∀ a b, rel a b → n.extent b = m.extent a) : top + s = top' + r := by
  induction h generalizing s ss with
  | done =>
    cases ss with
    | nil =>
      cases g
      exact Nat.add_comm _ _
    | cons q ss =>
      obtain ⟨p, hp, -⟩ := hright q List.mem_cons_self
      simp at hp
  | @record r rs hrest ih =>
    cases ss with
    | nil =>
      obtain ⟨q, hq, -⟩ := hleft r List.mem_cons_self
      simp at hq
    | cons s ss =>
      cases g with
      | record grest =>
        obtain ⟨q, hq, hrq⟩ := hleft r List.mem_cons_self
        obtain ⟨p, hp, hps⟩ := hright s List.mem_cons_self
        have hmr := five_le_extent m r
        have hns := five_le_extent n s
        have hrp : r ≤ p := by
          rcases List.mem_cons.mp hp with rfl | hp'
          · exact Nat.le_refl _
          · have := (hrest.bounds hp').1
            omega
        have hsq : s ≤ q := by
          rcases List.mem_cons.mp hq with rfl | hq'
          · exact Nat.le_refl _
          · have := (grest.bounds hq').1
            omega
        -- The first records correspond: neither side has an earlier one.
        have hfirst := horder p s r q hps hrq
        obtain rfl : s = q := by omega
        have hsize := hextent r s hrq
        have := ih grest (fun p hp => ?_) fun q hq => ?_
        · omega
        · obtain ⟨q, hq, hpq⟩ := hleft p (List.mem_cons_of_mem _ hp)
          refine ⟨q, (List.mem_cons.mp hq).resolve_left ?_, hpq⟩
          rintro rfl
          have := (hrest.bounds hp).1
          have := horder r q p q hrq hpq
          omega
        · obtain ⟨p, hp, hpq⟩ := hright q (List.mem_cons_of_mem _ hq)
          refine ⟨p, (List.mem_cons.mp hp).resolve_left ?_, hpq⟩
          rintro rfl
          have := (grest.bounds hq).1
          have := horder p s p q hrq hpq
          omega

instance decidable (m : Memory) (top : Nat) : (rs : List Nat) → (r : Nat) →
    Decidable (Tiled m top r rs)
  | [], _ => decidable_of_iff' _ nil_iff
  | _ :: rs, r =>
    have := decidable m top rs (r + m.extent r)
    decidable_of_iff' _ cons_iff

end Tiled


end Memory


end ArenaScheme
