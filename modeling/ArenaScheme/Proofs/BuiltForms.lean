import ArenaScheme.Proofs.Portraits
import ArenaScheme.Proofs.SceneSteps

/-! Machines that a host puts things into, one after the other, each with a slot that holds it. -/

namespace ArenaScheme

open Memory Heap

/-- The scene after a machine in a scene `B` got the things `items`. -/
structure Scene.Grown (ground : Ground) (size : UInt32) (B : Scene) (items : List Item)
    (S : Scene) : Prop where
  faithful : S.Faithful ground
  confined : Machine.Confined size S.machine
  world : S.world = { B.world with store := ⟨B.world.store.items ++ items⟩ }
  slots : S.slots = B.slots ++ List.range' B.world.store.items.length items.length
  top : S.machine.heap.top ≤ B.machine.heap.top + items.length * fieldsSize 2

namespace Scene.Grown

variable {ground : Ground} {size : UInt32} {B S : Scene} {items : List Item}

/-- Each of the things is where a slot says. -/
theorem pos (h : B.Grown ground size items S) {k : Nat} (hk : k < items.length) :
    S.pos (B.world.store.items.length + k) (S.machine.heap.root (B.slots.length + k)) := by
  refine h.faithful.pos_slot ?_
  rw [h.slots, List.getElem?_append_right (Nat.le_add_right _ _), Nat.add_sub_cancel_left,
    List.getElem?_range' hk, Nat.one_mul]

theorem item (h : B.Grown ground size items S) {k : Nat} {item : Item}
    (hk : items[k]? = some item) : S.world.store.item (B.world.store.items.length + k) = item := by
  unfold Store.item
  rw [h.world]
  simp only
  rw [List.getElem?_append_right (Nat.le_add_right _ _), Nat.add_sub_cancel_left, hk]
  rfl

/-- One thing more, made by an operation of the host. -/
theorem push (op : HeapOp) {x : HeapM Ref} {item : Item} (h : B.Grown ground size items S)
    (hrefs : ∀ r ∈ op.refs, ∃ i, S.pos i r)
    (hplain : op.frames = [] ∧ op.slots = 0 ∧ op.captured = [])
    (hx : op.apply S.machine.heap = S.machine.heap.after x)
    (hm : S.machine.heap.Meets True (fieldsSize 2) (.ok (S.world.store.make item))
      (Shows ground S.slots) (·.Represents ground S.world.store S.slots) (x S.machine.heap))
    (hroom : B.machine.heap.top + (items.length + 1) * fieldsSize 2 ≤ maxSize) :
    ∃ T : Scene, B.Grown ground size (items ++ [item]) T := by
  have hS := h.faithful
  have htop := h.top
  rw [Nat.add_mul, Nat.one_mul] at hroom
  obtain ⟨hframes, hslots, hcaptured⟩ := hplain
  have hop : op.Valid S.machine.heap := by
    refine ⟨fun r hr => ?_, ?_, ?_⟩
    · obtain ⟨i, hi⟩ := hrefs r hr
      exact hS.mem hi
    · rw [hframes]
      exact List.forall_mem_nil _
    · rw [hslots]
      exact Nat.zero_le _
  have hmirrors := Tracks.make hS (Nat.le_refl _) hm
  obtain ⟨r, g, hrun, hg⟩ : ∃ r g, x S.machine.heap = .ok r g ∧
      g.top ≤ S.machine.heap.top + fieldsSize 2 := by
    generalize x S.machine.heap = p at hm
    cases hm with
    | ok _ _ hg => exact ⟨_, _, rfl, hg⟩
    | refused hexpected _ => cases hexpected
    | exhausted _ hgt _ => omega
  have hmade : Eval.onHeap x S.machine = .ok r { S.machine with heap := g } := by
    unfold Eval.onHeap
    rw [hrun]
  unfold Mirrors Tracks at hmirrors
  generalize hq : Act.make item S.world = q at hmirrors
  generalize hp : Eval.onHeap x S.machine = p at hmirrors
  cases hmirrors with
  | @ok T _ _ hT _ harrives =>
    obtain ⟨i, rfl, hslotsT, hi⟩ := harrives
    obtain ⟨rfl, hmachine⟩ : r = _ ∧ _ := EStateM.Result.ok.inj (hmade.symm.trans hp)
    obtain ⟨rfl, hworld⟩ : S.world.store.items.length = i ∧ _ := EStateM.Result.ok.inj hq
    have hheap : op.apply S.machine.heap = T.machine.heap := by
      rw [hx, Heap.after, hrun, ← hmachine]
    have hcT : Machine.Confined size T.machine := by
      have := h.confined.operate hop (by rw [hcaptured]; exact List.forall_mem_nil _)
      rw [hheap] at this
      rwa [← hmachine] at this ⊢
    have hpush : (HeapOp.pushRoot r).Valid T.machine.heap :=
      ⟨List.forall_mem_singleton.mpr (hT.mem hi), (List.forall_mem_nil _), Nat.zero_le _⟩
    refine ⟨T.push _ r, hT.push hi, hcT.operate hpush (List.forall_mem_nil _), ?_, ?_, ?_⟩
    · refine hworld.symm.trans ?_
      rw [h.world, List.append_assoc]
    · change T.slots ++ [S.world.store.items.length] = _
      rw [hslotsT, h.slots, h.world, List.append_assoc, List.length_append, List.length_append,
        List.length_singleton, List.range'_1_concat]
    · change T.machine.heap.top ≤ _
      rw [← hmachine, List.length_append, List.length_singleton, Nat.add_mul, Nat.one_mul]
      change g.top ≤ _
      omega
  | error _ _ _ => cases hmade.symm.trans hp
  | exhausted _ => cases hmade.symm.trans hp

theorem integer (h : B.Grown ground size items S) (value : Int)
    (hroom : B.machine.heap.top + (items.length + 1) * fieldsSize 2 ≤ maxSize) :
    ∃ T : Scene, B.Grown ground size
      (items ++ [.integer (signedOfWord (value % 18446744073709551616).toNat)]) T :=
  h.push (.integer value) (List.forall_mem_nil _) ⟨rfl, rfl, rfl⟩ rfl
    (h.faithful.toPortrays.integer value) hroom

theorem pair {i j x y : Nat} (h : B.Grown ground size items S) (hx : S.pos i x) (hy : S.pos j y)
    (hroom : B.machine.heap.top + (items.length + 1) * fieldsSize 2 ≤ maxSize) :
    ∃ T : Scene, B.Grown ground size (items ++ [.pair i j]) T :=
  h.push (.cons x y)
    (List.forall_mem_cons.mpr ⟨⟨_, hx⟩, List.forall_mem_singleton.mpr ⟨_, hy⟩⟩)
    ⟨rfl, rfl, rfl⟩ rfl (h.faithful.toPortrays.cons hx hy) hroom

end Scene.Grown

section

variable {A : Store} {slots : List Nat} {pos : Nat → Nat → Prop} {h : Heap} {i j k r x y : Nat}

theorem Depicts.object_null (hd : Depicts ground A slots pos h) : A.object Store.null = .null := by
  have hobject : h.object Heap.null = .null := by
    unfold Heap.object Heap.kind
    rw [(hd.sound.fixture (Heap.null, .null) (.head _)).2.1]
  have halike : (A.object Store.null).Alike pos .null := hobject ▸ hd.object hd.null
  generalize A.object Store.null = o at halike ⊢
  cases halike
  rfl

theorem Depicts.object_pair (hd : Depicts ground A slots pos h) (hi : A.object i = .pair j k)
    (hr : pos i r) (hx : pos j x) (hy : pos k y) : h.object r = .pair x y := by
  have halike := hd.object hr
  rw [hi] at halike
  generalize h.object r = o at halike ⊢
  cases halike with
  | pair hcar hcdr =>
    obtain rfl := (hd.eq_iff hcar hx).mp rfl
    obtain rfl := (hd.eq_iff hcdr hy).mp rfl
    rfl

theorem Depicts.object_integer {value : Int} (hd : Depicts ground A slots pos h)
    (hi : A.object i = .integer value) (hr : pos i r) : h.object r = .integer value := by
  have halike := hd.object hr
  rw [hi] at halike
  generalize h.object r = o at halike ⊢
  cases halike
  rfl

end

/-- What is not in the world names no special form. -/
theorem Scene.Faithful.specialForm?_eq_none {ground : Ground} {S : Scene} {i : Nat}
    (hS : S.Faithful ground) (hi : S.world.store.items.length ≤ i) :
    S.world.keywords.specialForm? i = none := by
  have hlt : ∀ p ∈ S.world.keywords.forms, p.1 < S.world.store.items.length :=
    ((List.forall₂_and_left _ _).mp
      (hS.keywords.forms.imp fun _ _ hp => ⟨hS.lt (hS.stays hp.1), hp⟩)).1
  exact List.lookup_eq_none_iff.mpr fun p hp =>
    bne_iff_ne.mpr (Nat.ne_of_gt (Nat.lt_of_lt_of_le (hlt p hp) hi))

/-- A machine that has just started. -/
theorem exists_grown (size : UInt32) : ∃ (ground : Ground) (B : Scene), B.Grown ground size [] B ∧
    B.machine.heap.top ≤ 20 + furnishCost ∧
    ∀ {k}, k < 8 → B.machine.heap.top + (k + 1) * fieldsSize 2 ≤ maxSize := by
  obtain ⟨m, hstart, -, htop⟩ := Machine.exists_start size
  have hc : Machine.Confined size m := .start hstart
  refine ⟨_, m.scene _, ⟨hc.faithful, hc, by simp, by simp, by simp⟩, htop, fun {k} hk => ?_⟩
  have hcost : 20 + furnishCost + 8 * fieldsSize 2 ≤ maxSize := by decide
  have hle : (k + 1) * fieldsSize 2 ≤ 8 * fieldsSize 2 := Nat.mul_le_mul_right _ hk
  have htop : (m.scene fun _ => True).machine.heap.top ≤ 20 + furnishCost := htop
  omega

end ArenaScheme
