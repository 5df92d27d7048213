import ArenaScheme.Proofs.Collection.Reclaiming
import ArenaScheme.Proofs.Machines

/-! When a heap collects and how far it grows. An allocation that fits takes what is free; one that
does not collects first, and then the size doubles as often as it has to. What it comes to depends
on the bytes that are live at that moment, so these are counted without the collector. -/

namespace ArenaScheme

open Memory Heap

/-- `k` is the least number of doublings after which `size` is at least `goal`. -/
structure LeastDoublings (size goal k : Nat) : Prop where
  reaches : goal ≤ size * 2 ^ k
  least : ∀ j < k, size * 2 ^ j < goal

namespace LeastDoublings

variable {size goal k : Nat}

theorem zero (h : goal ≤ size) : LeastDoublings size goal 0 where
  reaches := by rwa [Nat.pow_zero, Nat.mul_one]
  least _ hj := absurd hj (Nat.not_lt_zero _)

/-- One doubling more, before the others. -/
theorem succ (h : LeastDoublings (2 * size) goal k) (hlt : size < goal) :
    LeastDoublings size goal (k + 1) := by
  have hpow : ∀ i, size * 2 ^ (i + 1) = 2 * size * 2 ^ i := fun i => by
    rw [Nat.pow_succ', ← Nat.mul_assoc, Nat.mul_comm size]
  refine ⟨hpow k ▸ h.reaches, fun j hj => ?_⟩
  cases j with
  | zero => rwa [Nat.pow_zero, Nat.mul_one]
  | succ j => exact hpow j ▸ h.least j (Nat.lt_of_succ_lt_succ hj)

/-- The last doubling starts below the goal. -/
theorem lt (h : LeastDoublings size goal k) {bound : Nat} (hsize : size < bound)
    (hgoal : 2 * goal ≤ bound) : size * 2 ^ k < bound := by
  cases k with
  | zero => rwa [Nat.pow_zero, Nat.mul_one]
  | succ k =>
    have hlast := h.least k (Nat.lt_succ_self k)
    rw [Nat.pow_succ, ← Nat.mul_assoc]
    omega

end LeastDoublings

/-- The loop ends by its own condition: there are more rounds than it can take. -/
theorem doubleUntil_eq (goal : Nat) {fuel size : Nat} (hpos : 0 < size)
    (hfuel : goal ≤ size + fuel) :
    ∃ k, LeastDoublings size goal k ∧ doubleUntil goal fuel size = size * 2 ^ k := by
  induction fuel generalizing size with
  | zero => exact ⟨0, .zero hfuel, (Nat.mul_one size).symm⟩
  | succ fuel ih =>
    rw [doubleUntil]
    by_cases hlt : size < goal
    · obtain ⟨k, hk, heq⟩ := @ih (2 * size) (by omega) (by omega)
      refine ⟨k + 1, hk.succ hlt, ?_⟩
      rw [if_pos hlt, heq, Nat.pow_succ', ← Nat.mul_assoc, Nat.mul_comm size]
    · exact ⟨0, .zero (Nat.le_of_not_lt hlt), by rw [if_neg hlt, Nat.pow_zero, Nat.mul_one]⟩

namespace Heap

/-- The bytes in records that the heap or one of `refs` leads to. -/
noncomputable def liveBytes {n : Nat} (h : Heap) (refs : Vector Ref n) : Nat :=
  ((h.withKept refs).liveRecords.map h.memory.recordSize).sum

variable {rules : Rules} {n : Nat} {may : Effect → Prop} {h g : Heap}

/-! A heap never shrinks. -/

theorem SymbolAdded.capacity_eq {name : List UInt8} (ha : h.SymbolAdded rules name g) :
    g.capacity = h.capacity := by
  obtain ⟨_, m, hm, hhung⟩ := ha.added
  cases hhung with
  | first _ => exact hm.memory_size
  | below _ hset => exact hset.size.trans hm.memory_size

theorem BindingAdded.capacity_eq {frame symbol value : Nat}
    (ha : h.BindingAdded rules frame symbol value g) : g.capacity = h.capacity := by
  obtain ⟨m, hm, ⟨_, hset⟩⟩ := ha.added
  exact hset.size.trans hm.memory_size

theorem Change.capacity_le (hc : h.Change rules n may g) : h.capacity ≤ g.capacity := by
  cases hc with
  | move hmove => exact hmove.capacity_le
  | roots _ _ _ _ => exact Nat.le_refl _
  | record hm _ _ => exact Nat.le_of_eq hm.memory_size.symm
  | field _ hm _ _ => exact Nat.le_of_eq hm.size.symm
  | symbol hadded _ => exact Nat.le_of_eq hadded.capacity_eq.symm
  | binding hadded _ => exact Nat.le_of_eq hadded.capacity_eq.symm

theorem Evolves.capacity_le (he : Evolves rules n may h g) : h.capacity ≤ g.capacity := by
  induction he with
  | refl _ _ => exact Nat.le_refl _
  | step _ _ hc _ ih => exact Nat.le_trans hc.capacity_le ih

end Heap

/-- Valid operations never make a heap smaller. -/
theorem Reachable.capacity_le {size : UInt32} {h : Heap} {ops : List HeapOp}
    (hr : Reachable size h) (hops : HeapOp.ValidRun h ops) :
    h.capacity ≤ (ops.foldl HeapOp.apply h).capacity := by
  induction ops generalizing h with
  | nil => exact Nat.le_refl _
  | cons op ops ih =>
    exact Nat.le_trans (HeapOp.evolves hr.sound hops.1).capacity_le (ih (hr.step hops.1) hops.2)

namespace HeapM

variable {h g : Heap} {n size : Nat} {refs : Vector Ref n}

/-- How far a heap grows. -/
theorem grow_capacity (request : Nat) (hpos : 0 < h.capacity) (hmax : h.capacity ≤ maxSize)
    (hle : h.top + request ≤ maxSize) :
    ∃ g k, grow request h = .ok () g ∧ g.top = h.top ∧ g.collections = h.collections ∧
      LeastDoublings h.capacity (max (h.top + request) (2 * h.top)) k ∧
      g.capacity = min (h.capacity * 2 ^ k) maxSize := by
  obtain ⟨k, hk, heq⟩ := @doubleUntil_eq (max (h.top + request) (2 * h.top))
    (max (h.top + request) (2 * h.top)) h.capacity hpos (by omega)
  have hgrown : h.capacity ≤ h.capacity * 2 ^ k := Nat.le_mul_of_pos_right _ (Nat.two_pow_pos k)
  simp only [grow, bind, EStateM.bind, get, getThe, MonadStateOf.get, EStateM.get]
  rw [if_neg (by omega), heq]
  generalize hdoubled : h.capacity * 2 ^ k = doubled at hgrown ⊢
  by_cases hsame : min doubled maxSize = h.capacity
  · rw [if_neg (by simp [hsame])]
    exact ⟨h, k, rfl, rfl, rfl, hk, by rw [hdoubled, hsame]⟩
  · rw [if_pos (by simp [hsame])]
    refine ⟨{ h with
      memory := h.memory.resize (min doubled maxSize)
      journal := .growth h.capacity (min doubled maxSize) :: h.journal }, k, rfl, rfl, rfl, hk, ?_⟩
    change (h.memory.resize (min doubled maxSize)).size = _
    rw [size_resize, hdoubled]
    change max h.capacity _ = _
    omega

/-- How making room ends: the record fits as it is, or it fits after a collection, or what is live
leaves no room. -/
inductive RoomMade (h : Heap) (refs : Vector Ref n) (size : Nat) :
    EStateM.Result Fault Heap (Vector Ref n) → Prop
  | free : h.top + size ≤ h.capacity → RoomMade h refs size (.ok refs h)
  | grown {kept : Vector Ref n} {g : Heap} {k : Nat} : h.capacity < h.top + size →
    h.liveBytes refs + size ≤ maxSize → g.top = h.liveBytes refs →
    g.collections = h.collections + 1 →
    LeastDoublings h.capacity (max (h.liveBytes refs + size) (2 * h.liveBytes refs)) k →
    g.capacity = min (h.capacity * 2 ^ k) maxSize → RoomMade h refs size (.ok kept g)
  | exhausted {k : Heap} : h.capacity < h.top + size → maxSize < h.liveBytes refs + size →
    collect (h.withKept refs) = .ok () k → k.collections = h.collections + 1 →
    k.capacity = h.capacity →
    RoomMade h refs size
      (.error (.heapExhausted size) { k with roots := k.roots.shrink h.roots.size })

theorem room_made (size : Nat) (wf : h.WellFormed) (hpos : 0 < h.capacity)
    (hrefs : ∀ r ∈ refs, r ∈ h.records) : RoomMade h refs size (room size refs h) := by
  by_cases hfull : h.top + size > h.capacity
  · have hmem : ∀ r ∈ h.roots ++ refs.toArray, r ∈ h.records := fun r hr =>
      (Array.mem_append.mp hr).elim (wf.root r) fun hr => hrefs r ⟨hr⟩
    have wfKept : (h.withKept refs).WellFormed := { wf with root := hmem }
    obtain ⟨m, o, g, hc⟩ := exists_phases wfKept
    have hlive : g.top = h.liveBytes refs := hc.top_eq_sum wfKept
    have hcapacity : g.capacity = h.capacity := (hc.relocation wfKept).2
    have hroom : room size refs h = makeRoom size refs h := by
      simp only [room, bind, EStateM.bind, get, getThe, MonadStateOf.get, EStateM.get]
      rw [if_pos hfull]
    rw [hroom, makeRoom_run hc.run]
    by_cases hgt : maxSize < g.top + size
    · simp only [bind, EStateM.bind, grow_of_gt { g with roots := g.roots.shrink h.roots.size } hgt]
      exact .exhausted hfull (hlive ▸ hgt) hc.run hc.collections hcapacity
    · obtain ⟨f, k, hgrow, htop, hcollections, hk, hgrown⟩ :=
        grow_capacity (h := { g with roots := g.roots.shrink h.roots.size }) size
          (hcapacity ▸ hpos) (hcapacity ▸ wf.capacity_le) (Nat.le_of_not_lt hgt)
      change LeastDoublings g.capacity (max (g.top + size) (2 * g.top)) k at hk
      change f.capacity = min (g.capacity * 2 ^ k) maxSize at hgrown
      rw [hcapacity, hlive] at hk
      simp only [bind, EStateM.bind, hgrow]
      exact .grown hfull (hlive ▸ Nat.le_of_not_lt hgt) (htop.trans hlive)
        (hcollections.trans hc.collections) hk (hcapacity ▸ hgrown)
  · have hroom : room size refs h = .ok refs h := by
      simp only [room, bind, EStateM.bind, get, getThe, MonadStateOf.get, EStateM.get]
      rw [if_neg hfull]
      rfl
    rw [hroom]
    exact .free (Nat.le_of_not_lt hfull)

/-- An allocation is room that is made and a header that is put there. -/
theorem allocate_of_ok (kind : Kind) {kept : Vector Ref n} (hroom : room size refs h = .ok kept g) :
    ∃ f, allocate kind size refs h = .ok (g.top, kept) f ∧ f.capacity = g.capacity ∧
      f.collections = g.collections := by
  refine ⟨{ g with top := g.top + size, memory := g.memory.putHeader g.top kind g.pinning }, ?_,
    size_putHeader g.memory g.top kind g.pinning, rfl⟩
  rw [allocate_eq, bind_ok hroom]
  rfl

theorem allocate_of_error (kind : Kind) {fault : Fault} (hroom : room size refs h = .error fault g) :
    allocate kind size refs h = .error fault g := by
  rw [allocate_eq, bind_error hroom]

theorem put_ne_error {kind : Kind} {words : List Nat} {bytes : List UInt8} {fault : Fault} :
    put kind size words bytes h ≠ .error fault g := by
  change (EStateM.Result.ok _ _ : EStateM.Result Fault Heap Ref) ≠ _
  exact nofun

/-- A constructor checks the size of its record before it does anything else. -/
theorem tooLarge_of_run {f : Vector Ref n → HeapM Ref} (wf : h.WellFormed) (hpos : 0 < h.capacity)
    (hrefs : ∀ r ∈ refs, r ∈ h.records) (hf : ∀ xs k fault g, f xs k ≠ .error fault g) {s : Nat}
    (hrun : (checkSize size >>= fun _ => room size refs >>= f) h =
      .error (.recordTooLarge s) g) : maxSize < s ∧ g = h := by
  by_cases hsize : size > maxSize
  · rw [checkSize, if_pos hsize] at hrun
    obtain ⟨hfault, rfl⟩ := EStateM.Result.error.inj hrun
    obtain rfl := Fault.recordTooLarge.inj hfault
    exact ⟨hsize, rfl⟩
  · rw [checkSize, if_neg hsize, pure_bind] at hrun
    have hroom := room_made size wf hpos hrefs
    generalize hresult : room size refs h = result at hroom
    cases hroom with
    | free _ | grown _ _ _ _ _ _ =>
      rw [bind_ok hresult] at hrun
      exact absurd hrun (hf _ _ _ _)
    | exhausted _ _ _ _ _ =>
      rw [bind_error hresult] at hrun
      exact absurd (EStateM.Result.error.inj hrun).1 (by simp)

end HeapM

/-- The records without a fixed size, and what they are made of. -/
inductive Sized where
  | string (text : String)
  | makeString (length : Nat) (fill : Char)
  | makeVector (length : Nat) (fill : Ref)
  | vectorFromRoots (base : Slot)
  | symbol (name : String)

namespace Sized

def make : Sized → HeapM Ref
  | string text => HeapM.string text
  | makeString length fill => HeapM.makeString length fill
  | makeVector length fill => HeapM.makeVector length fill
  | vectorFromRoots base => HeapM.vectorFromRoots base
  | symbol name => HeapM.intern name

/-- The references that a record is made of. -/
def refs : Sized → List Ref
  | makeVector _ fill => [fill]
  | _ => []

/-- What is too large is refused before anything happens. -/
theorem tooLarge {h g : Heap} (wf : h.WellFormed) (hpos : 0 < h.capacity) (sized : Sized)
    (hrefs : ∀ r ∈ sized.refs, r ∈ h.records) {s : Nat}
    (hrun : sized.make h = .error (.recordTooLarge s) g) : maxSize < s ∧ g = h := by
  cases sized with
  | string text =>
    rw [make, HeapM.string_eq] at hrun
    exact HeapM.tooLarge_of_run wf hpos HeapM.mem_empty (fun _ _ _ _ => HeapM.put_ne_error) hrun
  | makeString length fill =>
    rw [make, HeapM.makeString_eq] at hrun
    exact HeapM.tooLarge_of_run wf hpos HeapM.mem_empty (fun _ _ _ _ => HeapM.put_ne_error) hrun
  | makeVector length fill =>
    rw [make, HeapM.makeVector_eq] at hrun
    refine HeapM.tooLarge_of_run wf hpos (fun r hr => ?_) (fun _ _ _ _ => HeapM.put_ne_error) hrun
    obtain rfl : r = fill := by simpa using hr
    exact hrefs r List.mem_cons_self
  | vectorFromRoots base =>
    rw [make, HeapM.vectorFromRoots_eq] at hrun
    refine HeapM.tooLarge_of_run wf hpos HeapM.mem_empty (fun _ k fault g => ?_)
      ((HeapM.rootCount_bind h _).symm.trans hrun)
    rw [HeapM.rootsBetween_bind, HeapM.put_bind, HeapM.releaseRoots_bind]
    rintro ⟨⟩
  | symbol name =>
    rw [make, HeapM.intern, HeapM.internWith, HeapM.get_bind] at hrun
    cases hfind : h.findSymbol name.toUTF8.toList with
    | some r =>
      simp only [hfind] at hrun
      cases hrun
    | none =>
      simp only [hfind] at hrun
      rw [HeapM.reserve_bind [absent, absent, Text.digest name.toUTF8.toList,
        name.toUTF8.toList.length] name.toUTF8.toList] at hrun
      rotate_left
      · exact fun _ _ => rfl
      refine HeapM.tooLarge_of_run wf hpos HeapM.mem_empty (fun _ k fault g => ?_) hrun
      rw [HeapM.put_bind]
      generalize ({ k with memory := k.written _ _ _, top := _ } : Heap) = k
      unfold HeapM.attachSymbol
      simp only [bind, EStateM.bind, get, getThe, MonadStateOf.get, EStateM.get]
      cases k.symbolLink name.toUTF8.toList k.capacity k.symbols none with
      | none => rintro ⟨⟩
      | some link => rintro ⟨⟩

end Sized

/-- When an allocation collects, when it succeeds, where the record goes and how far the heap grows;
what it leaves when it fails; and that no heap ever shrinks. -/
theorem allocation_policy {h : Heap} {n : Nat} (kind : Kind) (size : Nat) (refs : Vector Ref n)
    (wf : h.WellFormed) (hpos : 0 < h.capacity) (hrefs : ∀ r ∈ refs, r ∈ h.records) :
    (h.after (HeapM.allocate kind size refs)).collections =
      h.collections + (if h.capacity < h.used + size then 1 else 0) ∧
    ((∃ r kept g, HeapM.allocate kind size refs h = .ok (r, kept) g) ↔
      h.used + size ≤ h.capacity ∨ h.liveBytes refs + size ≤ 4294967295) ∧
    (∀ r kept g, HeapM.allocate kind size refs h = .ok (r, kept) g →
      (h.used + size ≤ h.capacity → r = h.used ∧ g.capacity = h.capacity) ∧
      (h.capacity < h.used + size → r = h.liveBytes refs ∧
        ∃ k, LeastDoublings h.capacity (max (h.liveBytes refs + size) (2 * h.liveBytes refs)) k ∧
          h.capacity * 2 ^ k < 2 ^ 64 ∧ g.capacity = min (h.capacity * 2 ^ k) 4294967295)) ∧
    (∀ fault g, HeapM.allocate kind size refs h = .error fault g →
      fault = .heapExhausted size ∧ g.capacity = h.capacity ∧
        ∃ k, HeapM.collect (h.withKept refs) = .ok () k ∧
          g = { k with roots := k.roots.shrink h.roots.size }) ∧
    (∀ (sized : Sized) s g, (∀ r ∈ sized.refs, r ∈ h.records) →
      sized.make h = .error (.recordTooLarge s) g → 4294967295 < s ∧ g = h) ∧
    (∀ (start : UInt32) k ops, Reachable start k → HeapOp.ValidRun k ops →
      k.capacity ≤ (ops.foldl HeapOp.apply k).capacity) ∧
    (∀ (start : UInt32) m (call : Machine.Call) fuel, Machine.Reachable start m → call.Valid m →
      m.heap.capacity ≤ (m.after (call.run (interpreter fuel))).heap.capacity) := by
  have hmax := wf.capacity_le
  rw [← and_assoc, ← and_assoc, ← and_assoc]
  refine ⟨?_, fun sized s g hrefs hrun => sized.tooLarge wf hpos hrefs hrun,
    fun _ _ _ hk hops => hk.capacity_le hops,
    fun _ m call fuel hm hcall =>
      (Machine.Call.becomes (alike_builtins trivial) hm.intact hcall fuel).evolves.capacity_le⟩
  have hroom := HeapM.room_made size wf hpos hrefs
  generalize hresult : HeapM.room size refs h = result at hroom
  unfold Heap.after Heap.used
  cases hroom with
  | free hfit =>
    obtain ⟨f, hok, hcapacity, hcollections⟩ := HeapM.allocate_of_ok kind hresult
    rw [hok, if_neg (Nat.not_lt_of_le hfit)]
    refine ⟨⟨⟨hcollections, fun _ => Or.inl hfit, fun _ => ⟨_, _, _, rfl⟩⟩, fun r kept g hrun => ?_⟩,
      fun _ _ hrun => nomatch hrun⟩
    obtain ⟨hpair, rfl⟩ := EStateM.Result.ok.inj hrun
    obtain ⟨rfl, -⟩ := Prod.mk.inj hpair
    exact ⟨fun _ => ⟨rfl, hcapacity⟩, fun hfull => absurd hfit (Nat.not_le_of_lt hfull)⟩
  | @grown _ _ k hfull hle htop hnumber hk hgrown =>
    obtain ⟨f, hok, hcapacity, hcollections⟩ := HeapM.allocate_of_ok kind hresult
    rw [hok, if_pos hfull]
    refine ⟨⟨⟨hcollections.trans hnumber, fun _ => Or.inr hle, fun _ => ⟨_, _, _, rfl⟩⟩,
      fun r kept g hrun => ?_⟩, fun _ _ hrun => nomatch hrun⟩
    obtain ⟨hpair, rfl⟩ := EStateM.Result.ok.inj hrun
    obtain ⟨rfl, -⟩ := Prod.mk.inj hpair
    refine ⟨fun hfit => absurd hfit (Nat.not_le_of_lt hfull), fun _ => ⟨htop, k, hk, ?_,
      hcapacity.trans hgrown⟩⟩
    unfold maxSize at hle hmax
    exact hk.lt (by omega) (by omega)
  | exhausted hfull hgt hcollect hcollections hcapacity =>
    rw [HeapM.allocate_of_error kind hresult, if_pos hfull]
    refine ⟨⟨⟨hcollections, (fun ⟨_, _, _, hrun⟩ => nomatch hrun), fun hfit => ?_⟩,
      (fun _ _ _ hrun => nomatch hrun)⟩, fun fault g hrun => ?_⟩
    · unfold maxSize at hgt
      omega
    · obtain ⟨rfl, rfl⟩ := EStateM.Result.error.inj hrun
      exact ⟨rfl, hcapacity, _, hcollect, rfl⟩

/-- A pair does not fit beside the knot as it is. A collection leaves the 26 bytes of the two pairs
that are live, and one doubling leaves half of the heap free. -/
theorem allocation_policy_knot :
    (Heap.knot.WellFormed ∧ 0 < Heap.knot.capacity ∧ ∀ r ∈ #v[26], r ∈ Heap.knot.records) ∧
    Heap.knot.capacity < Heap.knot.used + fieldsSize 2 ∧ Heap.knot.liveBytes #v[26] = 26 ∧
    ∃ kept g, HeapM.allocate .pair (fieldsSize 2) #v[26] Heap.knot = .ok (26, kept) g ∧
      g.capacity = 96 ∧ g.collections = 1 ∧
      LeastDoublings 48 (max (26 + fieldsSize 2) (2 * 26)) 1 := by
  have hpre : Heap.knot.WellFormed ∧ 0 < Heap.knot.capacity ∧
      ∀ r ∈ #v[26], r ∈ Heap.knot.records := by decide +kernel
  have hrun : ∃ kept g, HeapM.allocate .pair (fieldsSize 2) #v[26] Heap.knot = .ok (26, kept) g ∧
      g.capacity = 96 ∧ g.collections = 1 := by
    have hresult : (match HeapM.allocate .pair (fieldsSize 2) #v[26] Heap.knot with
      | .ok (r, _) g => (r, g.capacity, g.collections)
      | .error _ _ => (0, 0, 0)) = (26, 96, 1) := by decide +kernel
    cases hok : HeapM.allocate .pair (fieldsSize 2) #v[26] Heap.knot with
    | ok pair g =>
      rw [hok] at hresult
      simp only [Prod.mk.injEq] at hresult
      obtain ⟨r, kept⟩ := pair
      obtain ⟨rfl, hcapacity, hcollections⟩ := hresult
      exact ⟨kept, g, rfl, hcapacity, hcollections⟩
    | error fault g =>
      rw [hok] at hresult
      simp at hresult
  obtain ⟨kept, g, hok, hcapacity, hcollections⟩ := hrun
  have hfull : Heap.knot.capacity < Heap.knot.used + fieldsSize 2 := by decide +kernel
  have hpolicy := allocation_policy .pair (fieldsSize 2) #v[26] hpre.1 hpre.2.1 hpre.2.2
  have hlive := ((hpolicy.2.2.1 26 kept g hok).2 hfull).1
  exact ⟨hpre, hfull, hlive.symm, kept, g, hok, hcapacity, hcollections, by decide,
    fun j hj => by obtain rfl : j = 0 := by omega
                   decide⟩

end ArenaScheme
