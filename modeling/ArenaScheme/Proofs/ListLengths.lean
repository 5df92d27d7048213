import ArenaScheme.Heap.Object
import ArenaScheme.Proofs.WellFormed

/-! The length of a list, counted by two cursors of different speed. The pairs from a value on come
to an end or go on forever. If they end, the cursors never meet, as each pair has its own number of
successors. If they do not, some pair comes again, and the cursors meet after no more rounds than
there are records. -/

namespace ArenaScheme

open Memory Heap

variable {a car cdr m : Nat} {cell : Nat → Nat}

/-- The `n` pairs from `r` on are followed by something else. -/
inductive Chain (see : Nat → Object) : Nat → Nat → Prop
  | stop {r : Nat} : (∀ car cdr, see r ≠ .pair car cdr) → Chain see 0 r
  | pair {n r car cdr : Nat} : see r = .pair car cdr → Chain see n cdr → Chain see (n + 1) r

namespace Chain

variable {see : Nat → Object} {r n : Nat}

theorem unique (hn : Chain see n r) (hm : Chain see m r) : n = m := by
  induction hn generalizing m with
  | stop hr =>
    cases hm with
    | stop => rfl
    | pair hr' => exact absurd hr' (hr _ _)
  | pair hr _ ih =>
    cases hm with
    | stop hr' => exact absurd hr (hr' _ _)
    | pair hr' hm =>
      cases hr.symm.trans hr'
      rw [ih hm]

/-- The pairs of a chain are all different, as each has its own number of successors. -/
theorem exists_pairs (inside : Nat → Prop) (hn : Chain see n r) (hr : inside r)
    (hclosed : ∀ {q car cdr}, inside q → see q = .pair car cdr → inside cdr) :
    ∃ rs : List Nat, rs.length = n ∧ rs.Nodup ∧ (∀ q ∈ rs, inside q) ∧
      ∀ q ∈ rs, ∃ m < n, Chain see (m + 1) q := by
  induction hn with
  | stop =>
    exact ⟨[], rfl, .nil, fun q hq => absurd hq List.not_mem_nil,
      fun q hq => absurd hq List.not_mem_nil⟩
  | @pair n r car cdr hobject hn ih =>
    obtain ⟨rs, hlength, hnodup, hsub, hchains⟩ := ih (hclosed hr hobject)
    refine ⟨r :: rs, congrArg (· + 1) hlength, List.nodup_cons.mpr ⟨fun hmem => ?_, hnodup⟩,
      List.forall_mem_cons.mpr ⟨hr, hsub⟩, fun q hq => ?_⟩
    · obtain ⟨m, hlt, hchain⟩ := hchains r hmem
      have := hchain.unique (.pair hobject hn)
      omega
    · rcases List.mem_cons.mp hq with rfl | hq
      · exact ⟨n, by omega, .pair hobject hn⟩
      · obtain ⟨m, hlt, hchain⟩ := hchains q hq
        exact ⟨m, by omega, hchain⟩

end Chain

/-- Pairs that go on forever. -/
def Endless (see : Nat → Object) (cell : Nat → Nat) : Prop :=
  ∀ i, ∃ car, see (cell i) = .pair car (cell (i + 1))

namespace Endless

variable {see : Nat → Object} {cell : Nat → Nat} {n i : Nat}

theorem not_chain (hcell : Endless see cell) : ¬ Chain see n (cell i) := by
  intro hn
  generalize hr : cell i = r at hn
  induction hn generalizing i with
  | stop hstop =>
    subst hr
    obtain ⟨car, hpair⟩ := hcell i
    exact hstop _ _ hpair
  | pair hpair _ ih =>
    subst hr
    obtain ⟨car, hpair'⟩ := hcell i
    cases hpair.symm.trans hpair'
    exact ih rfl

/-- From a pair that comes again on, all pairs do. -/
theorem periodic (hcell : Endless see cell) {d : Nat} (heq : cell (a + d) = cell a) (k i : Nat)
    (hi : a ≤ i) : cell (i + k * d) = cell i := by
  have hone : ∀ j, cell (a + j + d) = cell (a + j) := by
    intro j
    induction j with
    | zero => exact heq
    | succ j ih =>
      obtain ⟨car, hpair⟩ := hcell (a + j)
      obtain ⟨car', hpair'⟩ := hcell (a + j + d)
      rw [ih, hpair] at hpair'
      rw [← Nat.add_assoc, Nat.add_right_comm]
      exact (Object.pair.inj hpair').2.symm
  obtain ⟨j, rfl⟩ := Nat.exists_eq_add_of_le hi
  induction k with
  | zero => rw [Nat.zero_mul, Nat.add_zero]
  | succ k ih => rw [Nat.succ_mul, ← Nat.add_assoc, Nat.add_assoc a, hone, ← Nat.add_assoc, ih]

/-- Cursors of which one is twice as fast meet once the slow one has come to a multiple of the
period on the circle. -/
theorem exists_meeting (hcell : Endless see cell) (rs : List Nat) (hmem : ∀ i, cell i ∈ rs) :
    ∃ m, 0 < m ∧ m ≤ rs.length ∧ cell (2 * m) = cell m := by
  obtain ⟨a, d, hd, hle, heq⟩ : ∃ a d, 0 < d ∧ a + d ≤ rs.length ∧ cell (a + d) = cell a := by
    by_contra hnone
    have hinj : ∀ i ∈ List.range (rs.length + 1), ∀ j ∈ List.range (rs.length + 1),
        cell i = cell j → i = j := by
      intro i hi j hj heq
      rw [List.mem_range] at hi hj
      rcases Nat.lt_trichotomy i j with hlt | rfl | hlt
      · refine absurd ⟨i, j - i, by omega, by omega, ?_⟩ hnone
        rw [Nat.add_sub_cancel' (by omega), heq]
      · rfl
      · refine absurd ⟨j, i - j, by omega, by omega, ?_⟩ hnone
        rw [Nat.add_sub_cancel' (by omega), heq]
    have hsub : (List.range (rs.length + 1)).map cell ⊆ rs := by
      intro q hq
      obtain ⟨i, -, rfl⟩ := List.mem_map.mp hq
      exact hmem i
    have hlength := (List.subperm_of_subset (List.nodup_range.map_on hinj) hsub).length_le
    rw [List.length_map, List.length_range] at hlength
    omega
  have hdiv := Nat.div_add_mod a d
  have hmod := Nat.mod_lt a hd
  have hm : (a / d + 1) * d = d * (a / d) + d := by rw [Nat.succ_mul, Nat.mul_comm]
  refine ⟨(a / d + 1) * d, by omega, by omega, ?_⟩
  rw [Nat.two_mul]
  exact hcell.periodic heq (a / d + 1) _ (by omega)

end Endless

namespace Heap

variable {h : Heap} {r n : Nat}

theorem kind_of_pair {car cdr : Ref} (hr : h.object r = .pair car cdr) :
    h.memory.kind r = .pair ∧ h.memory.field r 0 = car ∧ h.memory.field r 1 = cdr := by
  unfold object Heap.kind at hr
  cases hk : h.memory.kind r <;> simp only [hk] at hr <;> cases hr
  exact ⟨rfl, rfl, rfl⟩

theorem object_withRoots (h : Heap) (roots : Array Ref) (r : Ref) :
    { h with roots }.object r = h.object r := by
  simp only [Heap.object, Heap.kind, Heap.field, Heap.payload]
  rfl

theorem cdr_of_pair (hr : h.object r = .pair car cdr) : h.cdr r = .ok cdr := by
  obtain ⟨hk, -, rfl⟩ := kind_of_pair hr
  unfold Heap.cdr expectKind Heap.kind
  rw [if_pos hk]
  rfl

/-- The pairs from a value on come to an end, or they do not. -/
theorem chain_or_endless (h : Heap) (r : Nat) :
    (∃ n, Chain h.object n r) ∨ ∃ cell, cell 0 = r ∧ Endless h.object cell := by
  refine or_iff_not_imp_left.mpr fun hnone => ?_
  obtain ⟨cell, rfl, hnext⟩ :
      ∃ cell : Nat → Nat, cell 0 = r ∧ ∀ i, cell (i + 1) = h.memory.field (cell i) 1 :=
    ⟨fun i => (h.memory.field · 1)^[i] r, rfl, fun i => Function.iterate_succ_apply' _ i r⟩
  have hnever : ∀ i, ¬ ∃ n, Chain h.object n (cell i) := by
    intro i
    induction i with
    | zero => exact hnone
    | succ i ih =>
      rintro ⟨n, hn⟩
      rw [hnext] at hn
      by_cases hpair : ∃ car cdr, h.object (cell i) = .pair car cdr
      · obtain ⟨car, cdr, hpair⟩ := hpair
        obtain ⟨-, -, rfl⟩ := kind_of_pair hpair
        exact ih ⟨n + 1, .pair hpair hn⟩
      · exact ih ⟨0, .stop fun car cdr heq => hpair ⟨car, cdr, heq⟩⟩
  refine ⟨cell, rfl, fun i => ?_⟩
  by_contra hno
  refine hnever i ⟨0, .stop fun car cdr hpair => hno ⟨car, ?_⟩⟩
  rw [hnext, (kind_of_pair hpair).2.2, hpair]

/-- A list of `n` elements that ends in the empty list. -/
inductive IsList (h : Heap) : Nat → Nat → Prop
  | null {r : Nat} : h.object r = .null → IsList h 0 r
  | pair {n r car cdr : Nat} : h.object r = .pair car cdr → IsList h n cdr → IsList h (n + 1) r

theorem IsList.chain (hn : h.IsList n r) : Chain h.object n r := by
  induction hn with
  | null hr => exact .stop fun _ _ hr' => nomatch hr.symm.trans hr'
  | pair hr _ ih => exact .pair hr ih

theorem isList_zero_iff : h.IsList 0 r ↔ h.object r = .null := by
  constructor
  · rintro ⟨hr⟩
    exact hr
  · exact .null

theorem isList_succ_iff (hr : h.object r = .pair car cdr) :
    h.IsList (n + 1) r ↔ h.IsList n cdr := by
  constructor
  · rintro (_ | ⟨hr', hn⟩)
    cases hr.symm.trans hr'
    exact hn
  · exact .pair hr

namespace WellFormed

variable (wf : h.WellFormed)
include wf

/-- Behind the last byte there is nothing, and no pair. -/
theorem absent_ne_pair : h.object absent ≠ .pair car cdr := by
  intro hpair
  have hstored : ¬ absent < h.memory.stored.size :=
    Nat.not_lt.mpr (Nat.le_trans h.memory.stored_le wf.capacity_le)
  have hkind : h.memory.kind absent = .integer := by
    rw [Memory.kind, byte, dif_neg hstored]
    rfl
  exact absurd (hkind.symm.trans (kind_of_pair hpair).1) (by decide)

theorem cdr_mem (hr : r ∈ h.records) (hpair : h.object r = .pair car cdr) :
    cdr ∈ h.records ∨ cdr = absent := by
  obtain ⟨hk, -, rfl⟩ := kind_of_pair hpair
  exact (wf.reference r hr 1 (by simp [referenceFields, hk])).symm

/-- A chain has no more pairs than the heap has records. -/
theorem chain_le (hn : Chain h.object n r) (hr : r ∈ h.records) : 5 * n ≤ h.top := by
  obtain ⟨rs, rfl, hnodup, hsub, hchains⟩ :=
    hn.exists_pairs (fun q => q ∈ h.records ∨ q = absent) (.inl hr) fun hq hpair =>
      hq.elim (fun hq => wf.cdr_mem hq hpair) fun hq => absurd hpair (hq ▸ wf.absent_ne_pair)
  have hrecords : rs ⊆ h.records := by
    intro q hq
    refine (hsub q hq).resolve_right fun habsent => ?_
    obtain ⟨m, -, hchain⟩ := hchains q hq
    cases hchain with
    | pair hpair => exact wf.absent_ne_pair (habsent ▸ hpair)
  have hlength := (List.subperm_of_subset hnodup hrecords).length_le
  have := wf.tiled.length_le
  omega

theorem endless_mem (hcell : Endless h.object cell) (hr : cell 0 ∈ h.records) (i : Nat) :
    cell i ∈ h.records := by
  induction i with
  | zero => exact hr
  | succ i ih =>
    obtain ⟨car, hpair⟩ := hcell i
    obtain ⟨car', hpair'⟩ := hcell (i + 1)
    exact (wf.cdr_mem ih hpair).resolve_right fun habsent =>
      wf.absent_ne_pair (habsent ▸ hpair')

end WellFormed

/-! The walk. -/

section Walk

variable {list slow fast count rounds : Nat}

open Classical in
/-- On a chain the fast cursor gets to the end. It is ahead of the slow one, which has pairs to
take as long as the fast one has. -/
theorem listLengthFrom_of_chain {b : Nat} (hslow : Chain h.object a slow)
    (hfast : Chain h.object b fast) (hle : b ≤ a) (hrounds : b < 2 * rounds) :
    h.listLengthFrom list rounds slow fast count =
      some (if h.IsList b fast then .ok (count + b) else h.improper list) := by
  induction rounds generalizing slow fast count a b with
  | zero => omega
  | succ rounds ih =>
    unfold listLengthFrom
    cases hfast with
    | stop hstop =>
      rw [isList_zero_iff]
      split
      · rename_i hnull
        rw [if_pos hnull, Nat.add_zero]
      · exact absurd ‹_› (hstop _ _)
      · rw [if_neg ‹_›]
    | pair hpair hnext =>
      simp only [hpair]
      cases hnext with
      | stop hstop =>
        rw [isList_succ_iff hpair, isList_zero_iff]
        split
        · rename_i hnull
          rw [if_pos hnull]
        · exact absurd ‹_› (hstop _ _)
        · rw [if_neg ‹_›]
      | pair hpair' hrest =>
        cases hslow with
        | stop => omega
        | @pair _ _ _ next hhead htail =>
          simp only [hpair', cdr_of_pair hhead]
          rw [if_neg, ih htail hrest (by omega) (by omega), isList_succ_iff hpair,
            isList_succ_iff hpair', Nat.add_assoc, Nat.add_comm 2]
          rintro rfl
          have := htail.unique hrest
          omega

/-- On endless pairs the cursors meet in round `m`. -/
theorem listLengthFrom_of_endless (hcell : Endless h.object cell) {i : Nat}
    (hmeet : cell (2 * m) = cell m) (hi : i < m) (hrounds : m ≤ i + rounds) :
    h.listLengthFrom list rounds (cell i) (cell (2 * i)) count = some (h.improper list) := by
  induction rounds generalizing i count with
  | zero => omega
  | succ rounds ih =>
    obtain ⟨_, hfirst⟩ := hcell (2 * i)
    obtain ⟨_, hsecond⟩ := hcell (2 * i + 1)
    obtain ⟨_, hslow⟩ := hcell i
    unfold listLengthFrom
    simp only [hfirst, hsecond, cdr_of_pair hslow]
    split
    · rfl
    · rename_i hne
      refine ih (Nat.lt_of_le_of_ne hi ?_) (by omega)
      rintro rfl
      exact hne hmeet.symm

end Walk

/-- What counting has to give. -/
structure Counts (h : Heap) (r : Nat) (answer : Except Fault Nat) : Prop where
  ok : ∀ {n}, h.IsList n r → answer = .ok n
  improper : (∀ n, ¬ h.IsList n r) → answer = h.improper r

theorem listLengthFrom_counts (wf : h.WellFormed) (hr : r ∈ h.records) {rounds : Nat}
    (hrounds : h.capacity < rounds) :
    ∃ answer, h.listLengthFrom r rounds r r 0 = some answer ∧ h.Counts r answer := by
  rcases h.chain_or_endless r with ⟨n, hn⟩ | ⟨cell, rfl, hcell⟩
  · have hle := wf.chain_le hn hr
    have htop := wf.top_le
    refine ⟨_, listLengthFrom_of_chain hn hn (Nat.le_refl n) (by omega), fun hm => ?_, fun hno => ?_⟩
    · obtain rfl := hn.unique hm.chain
      rw [if_pos hm, Nat.zero_add]
    · rw [if_neg (hno n)]
  · obtain ⟨m, hpos, hle, hmeet⟩ := hcell.exists_meeting _ (wf.endless_mem hcell hr)
    have hlength := wf.tiled.length_le
    have htop := wf.top_le
    exact ⟨_, listLengthFrom_of_endless (i := 0) hcell hmeet hpos (by omega),
      fun hm => absurd hm.chain hcell.not_chain, fun _ => rfl⟩

theorem WellFormed.counted (wf : h.WellFormed) (hr : r ∈ h.records) :
    h.Counts r (h.listLength r) := by
  obtain ⟨answer, heq, hcounts⟩ := listLengthFrom_counts wf hr (Nat.lt_succ_self _)
  rwa [listLength, heq]

end Heap

/-- The length of a list is the number of pairs up to the empty list. Whatever else a value is, a
dotted list, a list that runs into a circle or no list at all, the answer is that it is not a proper
list. The walk comes to its answer, and more rounds do not change it. -/
theorem listLength_eq_ok_iff_isList {h : Heap} {r : Nat} (wf : h.WellFormed) (hr : r ∈ h.records) :
    (∀ rounds > h.capacity, h.listLengthFrom r rounds r r 0 = some (h.listLength r)) ∧
    (∀ n, h.listLength r = .ok n ↔ h.IsList n r) ∧
    ((∀ n, ¬ h.IsList n r) →
      h.listLength r = .error (.wrongType "proper list" (h.typeName r))) := by
  have hcounted := wf.counted hr
  refine ⟨fun rounds hrounds => ?_, fun n => ⟨fun hok => ?_, hcounted.ok⟩, hcounted.improper⟩
  · obtain ⟨answer, heq, hcounts⟩ := listLengthFrom_counts wf hr hrounds
    rw [heq]
    by_cases hlist : ∃ n, h.IsList n r
    · obtain ⟨n, hn⟩ := hlist
      rw [hcounts.ok hn, hcounted.ok hn]
    · rw [hcounts.improper (not_exists.mp hlist), hcounted.improper (not_exists.mp hlist)]
  · by_contra hno
    by_cases hlist : ∃ m, h.IsList m r
    · obtain ⟨m, hm⟩ := hlist
      rw [hcounted.ok hm] at hok
      exact hno (Except.ok.inj hok ▸ hm)
    · rw [hcounted.improper (not_exists.mp hlist)] at hok
      cases hok

/-- The empty list at 0, a list of two pairs from 18 on, and a pair at 31 that leads to a circle of
two others. -/
def Heap.loop : Heap :=
  { Heap.new 0 with
    memory := (((((Memory.zeros 96).putHeader 0 .null false |>.putHeader
      5 .pair false).writeWords 10 [0, 0] |>.putHeader
      18 .pair false).writeWords 23 [0, 5] |>.putHeader
      31 .pair false).writeWords 36 [0, 44] |>.putHeader
      44 .pair false).writeWords 49 [0, 57] |>.putHeader
      57 .pair false |>.writeWords 62 [0, 44]
    top := 70 }

theorem listLength_eq_ok_iff_isList_loop :
    Heap.loop.WellFormed ∧ 18 ∈ Heap.loop.records ∧ 31 ∈ Heap.loop.records ∧
    Heap.loop.listLength 18 = .ok 2 ∧ (∀ n, ¬ Heap.loop.IsList n 31) ∧
    Heap.loop.listLength 31 = .error (.wrongType "proper list" "pair") := by
  have hpre : Heap.loop.WellFormed ∧ 18 ∈ Heap.loop.records ∧ 31 ∈ Heap.loop.records ∧
      Heap.loop.object 0 = .null ∧ Heap.loop.object 5 = .pair 0 0 ∧
      Heap.loop.object 18 = .pair 0 5 ∧ Heap.loop.object 31 = .pair 0 44 ∧
      Heap.loop.object 44 = .pair 0 57 ∧ Heap.loop.object 57 = .pair 0 44 ∧
      Heap.loop.typeName 31 = "pair" := by decide +kernel
  obtain ⟨wf, hlist, hloop, h0, h5, h18, h31, h44, h57, hname⟩ := hpre
  have hcell : Endless Heap.loop.object fun i => if i = 0 then 31 else if i % 2 = 1 then 44 else 57 := by
    intro i
    refine ⟨0, ?_⟩
    rcases Nat.eq_zero_or_pos i with rfl | hpos
    · exact h31
    · rcases Nat.mod_two_eq_zero_or_one i with hmod | hmod
      · simpa [Nat.ne_of_gt hpos, hmod, Nat.add_mod] using h57
      · simpa [Nat.ne_of_gt hpos, hmod, Nat.add_mod] using h44
  have hno : ∀ n, ¬ Heap.loop.IsList n 31 := fun n hn => hcell.not_chain (i := 0) hn.chain
  refine ⟨wf, hlist, hloop, ?_, hno, ?_⟩
  · exact ((listLength_eq_ok_iff_isList wf hlist).2.1 2).mpr (.pair h18 (.pair h5 (.null h0)))
  · rw [(listLength_eq_ok_iff_isList wf hloop).2.2 hno, hname]

end ArenaScheme
