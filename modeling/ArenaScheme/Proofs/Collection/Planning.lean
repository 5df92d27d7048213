import ArenaScheme.Proofs.Collection.Marking

/-! The second pass of a collection. A marked record will stand where the marked records before it
end: `placeIn` says this without the pass, and the forwarding fields hold it afterwards. -/

namespace ArenaScheme

variable {rs : List Nat} {m n : Memory} {top : Nat}

namespace Memory

/-- The bytes of the marked records among `rs`. -/
def markedBytes (m : Memory) : List Nat → Nat
  | [] => 0
  | r :: rs => (if m.isMarked r then m.extent r else 0) + m.markedBytes rs

/-- The bytes of the marked records among `rs` that stand before `p`. -/
def placeIn (m : Memory) : List Nat → Nat → Nat
  | [], _ => 0
  | r :: rs, p =>
    if r = p then 0 else (if m.isMarked r then m.extent r else 0) + m.placeIn rs p

/-- Two memories that are the same from `low` on. -/
def SameFrom (low : Nat) (m n : Memory) : Prop := ∀ i, low ≤ i → n.byte i = m.byte i

namespace SameFrom

variable {low r : Nat} {m n : Memory}

section

variable (h : SameFrom low m n) (hr : low ≤ r)
include h hr

theorem sameBody : SameBody m r n r :=
  SameBody.of_bytes fun i _ => h (r + i) (by omega)

theorem extent : n.extent r = m.extent r :=
  (h.sameBody hr).extent

theorem isMarked : n.isMarked r = m.isMarked r :=
  isMarked_eq_of_byte (h r hr)

theorem forward : n.forward r = m.forward r :=
  word_congr fun _ _ => h _ (by omega)

end

theorem tiled (h : SameFrom low m n) (ht : Tiled m top low rs) : Tiled n top low rs :=
  ht.congr fun _ hp => h.extent (ht.bounds hp).1

end SameFrom

theorem markedBytes_congr (h : ∀ r ∈ rs, n.isMarked r = m.isMarked r ∧ n.extent r = m.extent r) :
    n.markedBytes rs = m.markedBytes rs := by
  induction rs with
  | nil => rfl
  | cons r rs ih =>
    obtain ⟨hm, he⟩ := h r List.mem_cons_self
    rw [markedBytes, markedBytes, hm, he, ih fun q hq => h q (List.mem_cons_of_mem _ hq)]

theorem placeIn_congr (p : Nat)
    (h : ∀ r ∈ rs, n.isMarked r = m.isMarked r ∧ n.extent r = m.extent r) :
    n.placeIn rs p = m.placeIn rs p := by
  induction rs with
  | nil => rfl
  | cons r rs ih =>
    obtain ⟨hm, he⟩ := h r List.mem_cons_self
    rw [placeIn, placeIn, hm, he, ih fun q hq => h q (List.mem_cons_of_mem _ hq)]

namespace Tiled

variable {m : Memory} {top r p q : Nat} {rs : List Nat}

theorem markedBytes_le (h : Tiled m top r rs) : r + m.markedBytes rs ≤ top := by
  induction h with
  | done => simp [markedBytes]
  | @record r rs hrest ih =>
    rw [markedBytes]
    split <;> omega

theorem placeIn_cons (h : Tiled m top (r + m.extent r) rs) (hp : p ∈ rs) :
    m.placeIn (r :: rs) p = (if m.isMarked r then m.extent r else 0) + m.placeIn rs p := by
  have hlow := (h.bounds hp).1
  have hpos := five_le_extent m r
  have hne : r ≠ p := by omega
  rw [placeIn, if_neg hne]

/-- A record before which everything is kept stays where it is. -/
theorem placeIn_eq (h : Tiled m top r rs) (hp : p ∈ rs)
    (hall : ∀ q ∈ rs, q < p → m.isMarked q = true) : r + m.placeIn rs p = p := by
  induction h with
  | done => simp at hp
  | @record r rs hrest ih =>
    rcases List.mem_cons.mp hp with rfl | hp'
    · rw [placeIn, if_pos rfl, Nat.add_zero]
    · have hlow := (hrest.bounds hp').1
      have hpos := five_le_extent m r
      have heq := ih hp' fun q hq => hall q (List.mem_cons_of_mem _ hq)
      rw [hrest.placeIn_cons hp', if_pos (hall r List.mem_cons_self (by omega))]
      omega

/-- Marked records keep their order. -/
theorem placeIn_lt_placeIn (h : Tiled m top r rs) (hp : p ∈ rs) (hq : q ∈ rs)
    (hlt : p < q) (hm : m.isMarked p = true) : m.placeIn rs p < m.placeIn rs q := by
  induction h with
  | done => simp at hp
  | @record r rs hrest ih =>
    have hpos := five_le_extent m r
    rcases List.mem_cons.mp hp with rfl | hp'
    · have hq' := (List.mem_cons.mp hq).resolve_left (by omega)
      rw [hrest.placeIn_cons hq', placeIn, if_pos rfl, if_pos hm]
      omega
    · have hlow := (hrest.bounds hp').1
      have hq' := (List.mem_cons.mp hq).resolve_left (by omega)
      have hle := ih hp' hq'
      rw [hrest.placeIn_cons hp', hrest.placeIn_cons hq']
      omega

/-- Marked records that have moved to their places stand end to end. -/
theorem compacted (h : Tiled m top r rs) (t : Nat)
    (hext : ∀ p ∈ rs, m.isMarked p = true → n.extent (t + m.placeIn rs p) = m.extent p) :
    Tiled n (t + m.markedBytes rs) t ((rs.filter m.isMarked).map fun p => t + m.placeIn rs p) := by
  induction h generalizing t with
  | done => exact .done
  | @record r rs hrest ih =>
    cases hm : m.isMarked r with
    | false =>
      have hsame : ∀ p ∈ rs, m.placeIn (r :: rs) p = m.placeIn rs p := by
        intro p hp
        rw [hrest.placeIn_cons hp, hm]
        simp
      rw [List.filter_cons_of_neg (by simp [hm]), markedBytes, hm,
        List.map_congr_left fun p hp => by rw [hsame p (List.mem_filter.mp hp).1]]
      have := ih t fun p hp hpm => by
        rw [← hsame p hp]
        exact hext p (List.mem_cons_of_mem _ hp) hpm
      simpa using this
    | true =>
      have hshift : ∀ p ∈ rs, t + m.placeIn (r :: rs) p = t + m.extent r + m.placeIn rs p := by
        intro p hp
        rw [hrest.placeIn_cons hp, if_pos hm, Nat.add_assoc]
      have hzero : m.placeIn (r :: rs) r = 0 := by rw [placeIn, if_pos rfl]
      have hfirst := hext r List.mem_cons_self hm
      rw [hzero, Nat.add_zero] at hfirst
      rw [List.filter_cons_of_pos (by simp [hm]), List.map_cons, hzero, Nat.add_zero, markedBytes,
        if_pos hm, List.map_congr_left fun p hp => hshift p (List.mem_filter.mp hp).1]
      refine .record ?_
      rw [hfirst, ← Nat.add_assoc]
      exact ih (t + m.extent r) fun p hp hpm => by
        rw [← hshift p hp]
        exact hext p (List.mem_cons_of_mem _ hp) hpm

end Tiled

/-- One step of planning. -/
def planStep (state : Nat × Memory) (r : Nat) : Nat × Memory :=
  if state.2.isMarked r then (state.1 + state.2.recordSize r, state.2.setForward r state.1)
  else state

theorem plan_eq (m : Memory) (rs : List Nat) : m.plan rs.toArray = rs.foldl planStep (0, m) := by
  simp only [plan, List.foldl_toArray']
  rfl

theorem sameFrom_setForward (m : Memory) (r target : Nat) :
    SameFrom (r + 5) m (m.setForward r target) :=
  fun i hi => byte_setWord_of_outside _ _ _ _ (by omega)

/-- Planning writes the forwarding fields of marked records and nothing else. -/
theorem foldl_planStep (htop : top < 4294967296) {start : Nat} (ht : Tiled m top start rs)
    (hsize : top ≤ m.size) (t : Nat) (hts : t ≤ start) :
    ∃ n, rs.foldl planStep (t, m) = (t + m.markedBytes rs, n) ∧ n.size = m.size ∧
      (∀ p ∈ rs, m.isMarked p = true → n.forward p = t + m.placeIn rs p) ∧
      ∀ i, (∀ p ∈ rs, m.isMarked p = true → i ≤ p ∨ p + 5 ≤ i) → n.byte i = m.byte i := by
  induction rs generalizing m start t with
  | nil => exact ⟨m, rfl, rfl, by simp, fun _ _ => rfl⟩
  | cons r rs ih =>
    cases ht with
    | record hrest =>
      have hpos := five_le_extent m r
      have hle := hrest.le
      rw [List.foldl_cons, planStep]
      cases hm : m.isMarked r with
      | false =>
        obtain ⟨n, heq, hn, hfwd, hother⟩ := ih hrest hsize t (by omega)
        refine ⟨n, ?_, hn, ?_, ?_⟩
        · rw [if_neg (by simp), heq, markedBytes, hm]
          simp
        · intro p hp hpm
          rcases List.mem_cons.mp hp with rfl | hp'
          · rw [hm] at hpm
            cases hpm
          · rw [hfwd p hp' hpm, hrest.placeIn_cons hp', hm]
            simp
        · intro i hi
          exact hother i fun p hp => hi p (List.mem_cons_of_mem _ hp)
      | true =>
        have hsame : SameFrom (r + m.extent r) m (m.setForward r t) :=
          fun i hi => sameFrom_setForward m r t i (by omega)
        have hlater : ∀ p ∈ rs, (m.setForward r t).isMarked p = m.isMarked p ∧
            (m.setForward r t).extent p = m.extent p := fun p hp =>
          have hlow := (hrest.bounds hp).1
          ⟨hsame.isMarked hlow, hsame.extent hlow⟩
        obtain ⟨n, heq, hn, hfwd, hother⟩ := ih (hsame.tiled hrest)
          (by rw [setForward, size_setWord]; exact hsize) (t + m.extent r) (by omega)
        have hkeep : ∀ i, i < r + m.extent r → n.byte i = (m.setForward r t).byte i := by
          intro i hi
          refine hother i fun p hp _ => Or.inl ?_
          have hlow := (hrest.bounds hp).1
          omega
        refine ⟨n, ?_, ?_, ?_, ?_⟩
        · rw [if_pos (by simp), recordSize_eq m r (by omega), heq, markedBytes_congr hlater,
            markedBytes, hm]
          simp [Nat.add_assoc]
        · rw [hn, setForward, size_setWord]
        · intro p hp hpm
          rcases List.mem_cons.mp hp with rfl | hp'
          · have hword : n.forward p = (m.setForward p t).forward p :=
              word_congr fun k hk => hkeep _ (by omega)
            rw [hword, placeIn, if_pos rfl, forward, setForward,
              word_setWord_of_lt _ _ _ (by omega) (by omega), Nat.add_zero]
          · rw [hfwd p hp' (by rw [(hlater p hp').1, hpm]), placeIn_congr p hlater,
              hrest.placeIn_cons hp', if_pos hm, Nat.add_assoc]
        · intro i hi
          have hout : i ≤ r ∨ r + 5 ≤ i := hi r List.mem_cons_self hm
          rw [hother i fun p hp hpm =>
              hi p (List.mem_cons_of_mem _ hp) (by rw [← (hlater p hp).1, hpm]),
            setForward, byte_setWord_of_outside _ _ _ _ (by omega)]

end Memory


end ArenaScheme
