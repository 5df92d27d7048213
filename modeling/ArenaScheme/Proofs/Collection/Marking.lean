import ArenaScheme.Proofs.WellFormed

/-! The first pass of a collection. The worklist keeps three facts: what it marks may be marked,
what it was given is marked or pending, and the references of a marked record are marked or
pending. When it runs empty, the marked records are exactly the live ones. -/

namespace ArenaScheme

namespace Memory

/-- Two memories that differ at most in the marks of the records `rs`. -/
structure SameButMarks (rs : List Nat) (m n : Memory) : Prop where
  size : n.size = m.size
  header : ∀ r ∈ rs, (n.byte r).toNat % 128 = (m.byte r).toNat % 128
  other : ∀ i, i ∉ rs → n.byte i = m.byte i

theorem toNat_byte_mark (m : Memory) (r : Nat) (hr : r < m.size) (hu : m.isMarked r = false) :
    ((m.mark r).byte r).toNat = (m.byte r).toNat + 128 := by
  have hlt := (m.not_isMarked_iff r).mp hu
  rw [mark, byte_setByte_self _ _ _ hr, UInt8.toNat_add]
  simp only [UInt8.reduceToNat]
  omega

theorem isMarked_mark_self (m : Memory) (r : Nat) (hr : r < m.size) (hu : m.isMarked r = false) :
    (m.mark r).isMarked r = true := by
  rw [isMarked_iff, toNat_byte_mark m r hr hu]
  omega

theorem isMarked_mark_of_ne (m : Memory) {r q : Nat} (h : r ≠ q) :
    (m.mark r).isMarked q = m.isMarked q :=
  isMarked_eq_of_byte (byte_setByte_of_ne _ _ _ _ h)

theorem isMarked_mark_of_isMarked (m : Memory) {r q : Nat} (hr : r < m.size)
    (hu : m.isMarked r = false) (hq : m.isMarked q = true) : (m.mark r).isMarked q = true := by
  by_cases h : r = q
  · subst h
    exact isMarked_mark_self m r hr hu
  · rw [isMarked_mark_of_ne m h, hq]

namespace SameButMarks

variable {rs : List Nat} {m n : Memory} {top r : Nat}

theorem refl (rs : List Nat) (m : Memory) : SameButMarks rs m m :=
  ⟨rfl, fun _ _ => rfl, fun _ _ => rfl⟩

theorem kind (h : SameButMarks rs m n) (hr : r ∈ rs) : n.kind r = m.kind r := by
  have hb : (n.byte r).toNat % 16 = (m.byte r).toNat % 16 := by
    have := h.header r hr
    omega
  rw [Memory.kind, Memory.kind, hb]

theorem isPinned (h : SameButMarks rs m n) (hr : r ∈ rs) : n.isPinned r = m.isPinned r := by
  have hb : (n.byte r).toNat / 64 % 2 = (m.byte r).toNat / 64 % 2 := by
    have := h.header r hr
    omega
  rw [Memory.isPinned, Memory.isPinned, hb]

theorem sameBody (h : SameButMarks rs m n) (ht : Tiled m top 0 rs) (hr : r ∈ rs) :
    SameBody m r n r := by
  refine ⟨h.kind hr, fun i hi hlt => h.other _ fun hmem => ?_⟩
  have hend := ht.end_le hr hmem (by omega)
  omega

theorem mark (h : SameButMarks rs m n) (hr : r ∈ rs) (hsize : r < m.size)
    (hu : n.isMarked r = false) : SameButMarks rs m (n.mark r) := by
  refine ⟨by rw [Memory.mark, size_setByte, h.size], fun q hq => ?_, fun i hi => ?_⟩
  · by_cases hrq : r = q
    · subst hrq
      rw [toNat_byte_mark n r (by rw [h.size]; exact hsize) hu, ← h.header r hq]
      omega
    · rw [Memory.mark, byte_setByte_of_ne _ _ _ _ hrq, h.header q hq]
  · rw [Memory.mark, byte_setByte_of_ne _ _ _ _ (by rintro rfl; exact hi hr), h.other i hi]

end SameButMarks

/-- What the worklist keeps: `Good` is what may be marked, `given` is what marking started from. -/
structure Marking (rs : List Nat) (Good : Nat → Prop) (m : Memory) (given pending : List Nat)
    (n : Memory) : Prop where
  same : SameButMarks rs m n
  open_good : ∀ p ∈ pending, p = absent ∨ (p ∈ rs ∧ Good p)
  marked_good : ∀ r ∈ rs, n.isMarked r = true → Good r
  started : ∀ p ∈ given, p = absent ∨ n.isMarked p = true ∨ p ∈ pending
  closed : ∀ r ∈ rs, n.isMarked r = true → ∀ k ∈ m.referenceFields r, m.field r k ≠ absent →
    n.isMarked (m.field r k) = true ∨ m.field r k ∈ pending

/-- How many steps the worklist can still take. -/
def markingWork (rs : List Nat) (n : Memory) (pending : List Nat) : Nat :=
  rs.countP (fun r => !n.isMarked r) * (n.size + 1) + pending.length

theorem countP_mark_lt (n : Memory) (r : Nat) (hsize : r < n.size) (hu : n.isMarked r = false)
    (rs : List Nat) (hr : r ∈ rs) :
    rs.countP (fun q => !(n.mark r).isMarked q) + 1 ≤ rs.countP (fun q => !n.isMarked q) := by
  have hmono : ∀ q, (!(n.mark r).isMarked q) = true → (!n.isMarked q) = true := by
    intro q hq
    cases hn : n.isMarked q with
    | false => rfl
    | true => rw [isMarked_mark_of_isMarked n hsize hu hn] at hq; cases hq
  induction rs with
  | nil => simp at hr
  | cons a rs ih =>
    simp only [List.countP_cons]
    rcases List.mem_cons.mp hr with rfl | hr'
    · have hrest := List.countP_mono_left (l := rs) fun q _ => hmono q
      rw [isMarked_mark_self n r hsize hu, hu]
      simp
      omega
    · have hrest := ih hr'
      have ha := hmono a
      split <;> split <;> first | omega | simp_all

namespace Marking

variable {rs given pending : List Nat} {Good : Nat → Prop} {m n : Memory} {top p : Nat}

/-- The first pending entry leads nowhere, or to a record that is marked already. -/
theorem skip (h : Marking rs Good m given (p :: pending) n)
    (hp : p = absent ∨ n.isMarked p = true) : Marking rs Good m given pending n := by
  have hdrop : ∀ q, q ≠ absent → q ∈ p :: pending → n.isMarked q = true ∨ q ∈ pending := by
    intro q hne hq
    rcases List.mem_cons.mp hq with rfl | hq
    · exact Or.inl (hp.resolve_left hne)
    · exact Or.inr hq
  refine ⟨h.same, fun q hq => h.open_good q (List.mem_cons_of_mem _ hq), h.marked_good, ?_, ?_⟩
  · intro q hq
    rcases h.started q hq with habs | hm | hpend
    · exact Or.inl habs
    · exact Or.inr (Or.inl hm)
    · by_cases habs : q = absent
      · exact Or.inl habs
      · exact Or.inr (hdrop q habs hpend)
  · intro r hr hm k hk hne
    rcases h.closed r hr hm k hk hne with hm' | hpend
    · exact Or.inl hm'
    · exact hdrop _ hne hpend

/-- The first pending entry is marked, and its references become pending. -/
theorem visit (h : Marking rs Good m given (p :: pending) n) (ht : Tiled m top 0 rs)
    (htop : top ≤ m.size) (hp : p ≠ absent) (hu : n.isMarked p = false)
    (href : ∀ r ∈ rs, ∀ k ∈ m.referenceFields r, m.field r k = absent ∨ m.field r k ∈ rs)
    (hgood : ∀ r ∈ rs, Good r → ∀ k ∈ m.referenceFields r, m.field r k ≠ absent →
      Good (m.field r k)) :
    Marking rs Good m given ((n.references p).reverse ++ pending) (n.mark p) := by
  obtain ⟨hprs, hpgood⟩ := (h.open_good p List.mem_cons_self).resolve_left hp
  have hsize : p < m.size := by have := ht.lt_top hprs; omega
  have hnsize : p < n.size := by rw [h.same.size]; exact hsize
  have hbody := h.same.sameBody ht hprs
  have hrefs : n.references p = ((m.referenceFields p).map (m.field p)).filter (· != absent) := by
    have hend := (ht.bounds hprs).2
    rw [references_eq (by rw [hbody.extent, h.same.size]; omega), hbody.referenceFields,
      List.map_congr_left fun k hk => hbody.reference hk]
  have hmem : ∀ q, q ∈ (n.references p).reverse ++ pending ↔
      (∃ k ∈ m.referenceFields p, m.field p k = q ∧ q ≠ absent) ∨ q ∈ pending := by
    intro q
    simp [hrefs]
    grind
  have hstill : ∀ q, n.isMarked q = true → (n.mark p).isMarked q = true :=
    fun q hq => isMarked_mark_of_isMarked n hnsize hu hq
  have hself := isMarked_mark_self n p hnsize hu
  have hdrop : ∀ q, q ∈ p :: pending →
      (n.mark p).isMarked q = true ∨ q ∈ (n.references p).reverse ++ pending := by
    intro q hq
    rcases List.mem_cons.mp hq with rfl | hq
    · exact Or.inl hself
    · exact Or.inr ((hmem q).mpr (Or.inr hq))
  refine ⟨h.same.mark hprs hsize hu, ?_, ?_, ?_, ?_⟩
  · intro q hq
    rcases (hmem q).mp hq with ⟨k, hk, rfl, hne⟩ | hq
    · exact Or.inr ⟨(href p hprs k hk).resolve_left hne, hgood p hprs hpgood k hk hne⟩
    · exact h.open_good q (List.mem_cons_of_mem _ hq)
  · intro r hr hm
    by_cases hpr : p = r
    · exact hpr ▸ hpgood
    · rw [isMarked_mark_of_ne n hpr] at hm
      exact h.marked_good r hr hm
  · intro q hq
    rcases h.started q hq with habs | hm | hpend
    · exact Or.inl habs
    · exact Or.inr (Or.inl (hstill q hm))
    · exact Or.inr (hdrop q hpend)
  · intro r hr hm k hk hne
    by_cases hpr : p = r
    · subst hpr
      exact Or.inr ((hmem _).mpr (Or.inl ⟨k, hk, rfl, hne⟩))
    · rw [isMarked_mark_of_ne n hpr] at hm
      rcases h.closed r hr hm k hk hne with hm' | hpend
      · exact Or.inl (hstill _ hm')
      · exact hdrop _ hpend

/-- The worklist comes to its end without meeting a bad reference. -/
theorem run (ht : Tiled m top 0 rs) (htop : top ≤ m.size)
    (href : ∀ r ∈ rs, ∀ k ∈ m.referenceFields r, m.field r k = absent ∨ m.field r k ∈ rs)
    (hgood : ∀ r ∈ rs, Good r → ∀ k ∈ m.referenceFields r, m.field r k ≠ absent →
      Good (m.field r k))
    (fuel : Nat) (pending : List Nat) (n : Memory) (h : Marking rs Good m given pending n)
    (hfuel : markingWork rs n pending < fuel) :
    ∃ o, markFrom top fuel pending n = (none, o) ∧ Marking rs Good m given [] o := by
  induction fuel generalizing pending n with
  | zero => omega
  | succ fuel ih =>
    cases pending with
    | nil => exact ⟨n, rfl, h⟩
    | cons p pending =>
      have hskip : markingWork rs n pending < fuel := by
        simp only [markingWork, List.length_cons] at hfuel ⊢
        omega
      rw [markFrom]
      by_cases hp : p = absent
      · rw [if_pos hp]
        exact ih pending n (h.skip (Or.inl hp)) hskip
      · have hprs := ((h.open_good p List.mem_cons_self).resolve_left hp).1
        have hlt := ht.lt_top hprs
        rw [if_neg hp, if_neg (Nat.not_le.mpr hlt)]
        cases hm : n.isMarked p with
        | true =>
          rw [if_pos rfl]
          exact ih pending n (h.skip (Or.inr hm)) hskip
        | false =>
          rw [if_neg (by decide)]
          refine ih _ _ (h.visit ht htop hp hm href hgood) ?_
          have hbody := h.same.sameBody ht hprs
          have hcount := countP_mark_lt n p (by rw [h.same.size]; omega) hm rs hprs
          have hend := (ht.bounds hprs).2
          have hrefs : (n.references p).length ≤ n.size := by
            have hlen := length_referenceFields_lt n p
            rw [hbody.extent] at hlen
            rw [references_eq (by rw [hbody.extent, h.same.size]; omega)]
            refine Nat.le_trans (List.length_filter_le _ _) ?_
            rw [List.length_map, h.same.size]
            omega
          have hmul := Nat.mul_le_mul_right (n.size + 1) hcount
          simp only [markingWork, List.length_append, List.length_reverse, List.length_cons] at *
          rw [show (n.mark p).size = n.size from size_setByte _ _ _]
          rw [Nat.add_mul] at hmul
          omega

end Marking

end Memory

end ArenaScheme
