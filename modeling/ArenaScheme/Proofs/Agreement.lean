import ArenaScheme.Proofs.Steps

/-! Two runs that agree. From the two heaps of a view, both runs give results that correspond, or
both fail with the same fault, which is not that of a corrupt heap; either way the heaps they leave
correspond. -/

namespace ArenaScheme

open Memory Heap

variable {a count i : Nat} {v w : View}

/-- The fault of a heap that is not laid out as it should be. -/
def Fault.isCorrupt : Fault → Bool
  | corruptHeap _ => true
  | _ => false

/-- How two runs from the heaps of `v` end. The first `n` slots keep the kinds of their values. -/
inductive Outcome (n : Nat) (v : View) {α β : Type} (post : View → α → β → Prop) :
    EStateM.Result Fault Heap α → EStateM.Result Fault Heap β → Prop
  | ok (w : View) {a : α} {b : β} : Corr w → Later n v w → post w a b →
    Outcome n v post (.ok a w.left) (.ok b w.right)
  | error (w : View) (fault : Fault) : Corr w → Later n v w → fault.isCorrupt = false →
    Outcome n v post (.error fault w.left) (.error fault w.right)

def Agrees (n : Nat) (v : View) {α β : Type} (post : View → α → β → Prop) (x : HeapM α)
    (y : HeapM β) : Prop :=
  Outcome n v post (x v.left) (y v.right)

/-- Answers that correspond, or the same fault. -/
inductive Answers {α β : Type} (post : α → β → Prop) : Except Fault α → Except Fault β → Prop
  | ok {a : α} {b : β} : post a b → Answers post (.ok a) (.ok b)
  | error (fault : Fault) : fault.isCorrupt = false → Answers post (.error fault) (.error fault)

/-- The kind of the value in a slot. -/
def View.slotKind (v : View) (i : Nat) : Kind := v.left.memory.kind (v.left.root i)

/-- `w` is `v` with other roots. -/
structure Rooted (v w : View) : Prop extends SameTerms v w where
  corr : Corr w
  ordered : v.Ordered → w.Ordered
  rel : ∀ c d, v.Rel c d → w.Rel c d
  kind : ∀ c, w.left.memory.kind c = v.left.memory.kind c
  left : w.left = { v.left with roots := w.left.roots }

/-- `w` is `v` with one root more. -/
structure RootPushed (v : View) (a : Nat) (w : View) : Prop extends Rooted v w where
  roots : w.left.roots = v.left.roots.push a
  size : w.left.roots.size = v.left.roots.size + 1
  self : w.slotKind v.left.roots.size = v.left.memory.kind a
  slot : ∀ i < v.left.roots.size, w.slotKind i = v.slotKind i

/-- `w` is `v` with a value in slot `i`. -/
structure RootSet (v : View) (i a : Nat) (w : View) : Prop extends Rooted v w where
  size : w.left.roots.size = v.left.roots.size
  self : i < v.left.roots.size → w.slotKind i = v.left.memory.kind a
  slot : ∀ j, j ≠ i → w.slotKind j = v.slotKind j

/-- `w` is `v` with no more than `count` roots. -/
structure RootsReleased (v : View) (count : Nat) (w : View) : Prop extends Rooted v w where
  roots : w.left.roots = v.left.roots.shrink count
  size : w.left.roots.size = min count v.left.roots.size
  slot : ∀ i < count, w.slotKind i = v.slotKind i

namespace Corr

variable {v : View} {a b : Nat}

theorem rootPushed (hv : Corr v) (hab : v.Rel a b) : RootPushed v a (v.pushRoots a b) where
  corr := hv.pushRoots hab
  ordered := (hv.later_pushRoots hab (Nat.zero_le _)).ordered
  guard := rfl
  rules := rfl
  may := rfl
  rel _ _ := hv.rel_pushRoots
  kind _ := rfl
  left := rfl
  roots := rfl
  size := size_pushRoots v a b
  self := congrArg v.left.memory.kind (root_of_pushRoots_self v a b)
  slot _ hi := congrArg v.left.memory.kind (root_of_pushRoots v a b (Nat.ne_of_lt hi))

theorem rootSet (hv : Corr v) (hab : v.Rel a b) (hi : v.guard ≠ some i) :
    RootSet v i a (v.setRoots i a b) where
  corr := hv.setRoots hab hi
  ordered := (hv.later_setRoots hab hi (Nat.zero_le _) (Nat.zero_le _)).ordered
  guard := rfl
  rules := rfl
  may := rfl
  rel _ _ := rel_setRoots hi
  kind _ := rfl
  left := rfl
  size := size_setRoots v i a b
  self hlt := congrArg v.left.memory.kind (root_of_setRoots_self v a b hlt)
  slot _ hj := congrArg v.left.memory.kind (root_of_setRoots v a b hj.symm)

theorem rootsReleased (hv : Corr v) (hg : ∀ s, v.guard = some s → s < count) :
    RootsReleased v count (v.releaseRoots count) where
  corr := hv.releaseRoots hg
  ordered := (hv.later_releaseRoots hg (Nat.zero_le _) (Nat.zero_le _)).ordered
  guard := rfl
  rules := rfl
  may := rfl
  rel _ _ := rel_releaseRoots hg
  kind _ := rfl
  left := rfl
  roots := rfl
  size := size_releaseRoots v count
  slot _ hi := congrArg v.left.memory.kind (root_of_releaseRoots v hi)

end Corr

theorem RootPushed.root_eq (h : RootPushed v a w) (hi : i ≠ v.left.roots.size) :
    w.left.root i = v.left.root i := by
  unfold Heap.root
  rw [h.roots]
  simp [Array.getElem?_push, hi]

theorem RootPushed.root_self (h : RootPushed v a w) : w.left.root v.left.roots.size = a := by
  unfold Heap.root
  rw [h.roots]
  simp

theorem Later.slot {n : Nat} (h : Later n v w) (hi : i < n) : w.slotKind i = v.slotKind i := h.kind hi

namespace Agrees

variable {n k : Nat} {v : View} {α β γ δ : Type} {post : View → α → β → Prop} {x : HeapM α}
  {y : HeapM β}

theorem mono {weaker : View → α → β → Prop} (h : Agrees n v post x y) (hk : k ≤ n)
    (himp : ∀ w a b, Corr w → Later n v w → post w a b → weaker w a b) :
    Agrees k v weaker x y := by
  unfold Agrees at *
  generalize x v.left = p at h ⊢
  generalize y v.right = q at h ⊢
  cases h with
  | ok w hw hlater hpost => exact .ok w hw (hlater.mono hk) (himp w _ _ hw hlater hpost)
  | error w fault hw hlater hfault => exact .error w fault hw (hlater.mono hk) hfault

/-- What is known of the left run alone. -/
theorem and_left {Q : α → Heap → Prop} (h : Agrees n v post x y)
    (hleft : ∀ a g, x v.left = .ok a g → Q a g) :
    Agrees n v (fun w a b => post w a b ∧ Q a w.left) x y := by
  unfold Agrees at *
  generalize x v.left = p at h hleft ⊢
  generalize y v.right = q at h ⊢
  cases h with
  | ok w hw hlater hpost => exact .ok w hw hlater ⟨hpost, hleft _ _ rfl⟩
  | error w fault hw hlater hfault => exact .error w fault hw hlater hfault

theorem pure {a : α} {b : β} (hv : Corr v) (hn : n ≤ v.left.roots.size) (h : post v a b) :
    Agrees n v post (pure a) (pure b) :=
  .ok v hv (.refl hv hn) h

theorem throw {fault : Fault} (hv : Corr v) (hn : n ≤ v.left.roots.size)
    (hfault : fault.isCorrupt = false) : Agrees n v post (throw fault) (throw fault) :=
  .error v fault hv (.refl hv hn) hfault

theorem bind {mid : View → α → β → Prop} {last : View → γ → δ → Prop} {f : α → HeapM γ}
    {g : β → HeapM δ} (h : Agrees n v mid x y)
    (hnext : ∀ w a b, Corr w → Later n v w → mid w a b → Agrees n w last (f a) (g b)) :
    Agrees n v last (x >>= f) (y >>= g) := by
  unfold Agrees at h
  change Outcome n v last (EStateM.bind x f v.left) (EStateM.bind y g v.right)
  unfold EStateM.bind
  generalize x v.left = p at h ⊢
  generalize y v.right = q at h ⊢
  cases h with
  | ok w hw hlater hmid =>
    have hrun := hnext w _ _ hw hlater hmid
    unfold Agrees at hrun
    simp only
    generalize f _ w.left = p at hrun ⊢
    generalize g _ w.right = q at hrun ⊢
    cases hrun with
    | ok u hu hlater' hpost => exact .ok u hu (hlater.trans hlater') hpost
    | error u fault hu hlater' hfault => exact .error u fault hu (hlater.trans hlater') hfault
  | error w fault hw hlater hfault => exact .error w fault hw hlater hfault

/-- Looking at the state changes nothing. -/
theorem get_bind {last : View → γ → δ → Prop} {f : Heap → HeapM γ} {g : Heap → HeapM δ}
    (h : Agrees n v last (f v.left) (g v.right)) : Agrees n v last (get >>= f) (get >>= g) := h

theorem query {question : Heap → Except Fault α} {question' : Heap → Except Fault β}
    {answer : α → β → Prop} (hv : Corr v) (hn : n ≤ v.left.roots.size)
    (h : Answers answer (question v.left) (question' v.right)) :
    Agrees n v (fun w a b => w = v ∧ answer a b) (HeapM.query question)
      (HeapM.query question') := by
  unfold Agrees HeapM.query
  generalize question v.left = p at h ⊢
  generalize question' v.right = q at h ⊢
  cases h with
  | ok h => exact .ok v hv (.refl hv hn) ⟨rfl, h⟩
  | error fault hfault => exact .error v fault hv (.refl hv hn) hfault

theorem attempt (h : Agrees n v post x y) :
    Agrees n v (fun w => Answers (post w)) (HeapM.attempt x) (HeapM.attempt y) := by
  unfold Agrees at h
  unfold Agrees HeapM.attempt
  generalize x v.left = p at h ⊢
  generalize y v.right = q at h ⊢
  cases h with
  | ok w hw hlater hpost => exact .ok w hw hlater (.ok hpost)
  | error w fault hw hlater hfault => exact .ok w hw hlater (.error fault hfault)

/-- What is done after a step that leads from one view to another. -/
theorem of_step {c : γ} {d : δ} {last : View → α → β → Prop} {first : HeapM γ} {second : HeapM δ}
    {f : γ → HeapM α} {g : δ → HeapM β} (hlater : Later n v w)
    (hfirst : first v.left = .ok c w.left) (hsecond : second v.right = .ok d w.right)
    (h : Agrees n w last (f c) (g d)) : Agrees n v last (first >>= f) (second >>= g) := by
  change Outcome n v last (EStateM.bind first f v.left) (EStateM.bind second g v.right)
  simp only [EStateM.bind, hfirst, hsecond]
  unfold Agrees at h
  generalize f c w.left = p at h ⊢
  generalize g d w.right = q at h ⊢
  cases h with
  | ok u hu hlater' hpost => exact .ok u hu (hlater.trans hlater') hpost
  | error u fault hu hlater' hfault => exact .error u fault hu (hlater.trans hlater') hfault

section Bind

variable {last : View → γ → δ → Prop} {a b i : Nat}

theorem query_bind {question : Heap → Except Fault α} {question' : Heap → Except Fault β}
    {answer : α → β → Prop} {f : α → HeapM γ} {g : β → HeapM δ} (hv : Corr v)
    (hn : n ≤ v.left.roots.size) (h : Answers answer (question v.left) (question' v.right))
    (hnext : ∀ a b, answer a b → Agrees n v last (f a) (g b)) :
    Agrees n v last (HeapM.query question >>= f) (HeapM.query question' >>= g) :=
  (query hv hn h).bind fun _ a b _ _ ⟨heq, hab⟩ => heq ▸ hnext a b hab

theorem rootCount_bind {f : Nat → HeapM γ} {g : Nat → HeapM δ} (hv : Corr v)
    (hn : n ≤ v.left.roots.size)
    (h : Agrees n v last (f v.left.roots.size) (g v.left.roots.size)) :
    Agrees n v last (HeapM.rootCount >>= f) (HeapM.rootCount >>= g) :=
  of_step (.refl hv hn) rfl (by rw [hv.iso.size]; rfl) h

theorem root_bind {f : Nat → HeapM γ} {g : Nat → HeapM δ} (hv : Corr v) (hi : v.guard ≠ some i)
    (h : v.Rel (v.left.root i) (v.right.root i) →
      Agrees n v last (f (v.left.root i)) (g (v.right.root i))) :
    Agrees n v last (HeapM.root i >>= f) (HeapM.root i >>= g) :=
  h (hv.rel_root hi)

theorem pushRoot_bind {f : Nat → HeapM γ} {g : Nat → HeapM δ} (hv : Corr v)
    (hn : n ≤ v.left.roots.size) (hab : v.Rel a b)
    (h : ∀ w, RootPushed v a w → Agrees n w last (f v.left.roots.size) (g v.left.roots.size)) :
    Agrees n v last (HeapM.pushRoot a >>= f) (HeapM.pushRoot b >>= g) :=
  of_step (hv.later_pushRoots hab hn) rfl (by rw [hv.iso.size]; rfl)
    (h _ (hv.rootPushed hab))

theorem setRoot_bind {f : Unit → HeapM γ} {g : Unit → HeapM δ} (hv : Corr v)
    (hn : n ≤ v.left.roots.size) (hni : n ≤ i) (hi : v.guard ≠ some i) (hab : v.Rel a b)
    (h : ∀ w, RootSet v i a w → Agrees n w last (f ()) (g ())) :
    Agrees n v last (HeapM.setRoot i a >>= f) (HeapM.setRoot i b >>= g) :=
  of_step (hv.later_setRoots hab hi hn hni) rfl rfl (h _ (hv.rootSet hab hi))

theorem releaseRoots_bind {f : Unit → HeapM γ} {g : Unit → HeapM δ} (hv : Corr v)
    (hn : n ≤ v.left.roots.size) (hcount : n ≤ count) (hg : ∀ s, v.guard = some s → s < count)
    (h : ∀ w, RootsReleased v count w → Agrees n w last (f ()) (g ())) :
    Agrees n v last (HeapM.releaseRoots count >>= f) (HeapM.releaseRoots count >>= g) :=
  of_step (hv.later_releaseRoots hg hn hcount) rfl rfl (h _ (hv.rootsReleased hg))

end Bind


end Agrees


end ArenaScheme
