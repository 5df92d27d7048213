import ArenaScheme.Proofs.Interning
import ArenaScheme.Proofs.Runs
import ArenaScheme.Proofs.Variables

/-! Computations that succeed because there is room. What they cost bounds how far the heap can
grow. -/

namespace ArenaScheme

open Memory Heap

variable {result : EStateM.Result Fault Heap Ref} {frame k symbol value : Nat}

/-- The bytes that the symbol of a name takes. -/
def symbolCost (name : String) : Nat := symbolSize name.utf8ByteSize

namespace Heap

variable {rules : Rules} {h g : Heap} {size : Nat}

theorem Makes.exists_ok {refs : List Nat} {kind : Kind} {words : (Nat → Nat) → List Nat}
    {bytes : List UInt8} (hm : h.Makes rules refs kind words bytes size result)
    (hroom : h.top + size ≤ maxSize) : ∃ r g, result = .ok r g ∧ g.top ≤ h.top + size := by
  cases hm with
  | ok hr _ _ => exact ⟨_, _, rfl, Nat.add_le_add_right hr.top_le _⟩
  | exhausted hr hgt =>
    have := hr.top_le
    omega

theorem Interns.exists_ok {name : String} (hi : h.Interns rules name.toUTF8.toList result)
    (hroom : h.top + symbolCost name ≤ maxSize) :
    ∃ r g, result = .ok r g ∧ g.top ≤ h.top + symbolCost name := by
  unfold symbolCost at hroom ⊢
  rw [← Text.length_toUTF8] at hroom ⊢
  cases hi with
  | found _ => exact ⟨_, _, rfl, Nat.le_add_right _ _⟩
  | added _ hr hadded _ =>
    exact ⟨_, _, rfl, by rw [hadded.top_eq]; exact Nat.add_le_add_right hr.top_le _⟩
  | tooLarge _ hgt => omega
  | exhausted _ hlive hgt _ =>
    have := hlive.le_top
    omega

theorem Binds.exists_ok {result : EStateM.Result Fault Heap Unit}
    (hb : h.Binds rules frame symbol value result) (hroom : h.top + fieldsSize 4 ≤ maxSize) :
    ∃ g, result = .ok () g ∧ g.top ≤ h.top + fieldsSize 4 := by
  cases hb with
  | updated _ _ _ _ _ => exact ⟨_, rfl, Nat.le_add_right _ _⟩
  | added hr _ hadded _ =>
    exact ⟨_, rfl, by rw [hadded.top_eq]; exact Nat.add_le_add_right hr.top_le _⟩
  | exhausted hr hgt =>
    have := hr.top_le
    omega

/-- A symbol that is not reserved can be defined in every frame. -/
theorem Sound.define_ok (hs : h.Sound rules) (hframe : h.Permanent .environment frame)
    (hsymbol : symbol ∈ h.records) (hbindable : h.Bindable symbol) (hvalue : value ∈ h.records)
    (hroom : h.top + fieldsSize 4 ≤ maxSize) :
    ∃ g, HeapM.define frame symbol value h = .ok () g ∧ g.top ≤ h.top + fieldsSize 4 := by
  have hexpect : h.expectFrame frame = .ok () := by
    unfold expectFrame expectKind
    exact if_pos hframe.2.2
  rw [HeapM.define_run, symbolName_eq_ok_iff.mpr ⟨hbindable.kind, rfl⟩]
  simp only [hbindable.free, hexpect, Bool.false_eq_true, if_false]
  exact (HeapM.binds hs hframe.1 hframe.2.2 (fun _ => hframe.2.1) hsymbol (fun _ => hbindable)
    hvalue).exists_ok hroom

end Heap

/-- Both runs from the heaps of `v` succeed, and the left heap grows by `cost` bytes at most in the
course of valid operations. -/
def Completes (n cost : Nat) (v : View) {α β : Type} (post : View → α → β → Prop) (x : HeapM α)
    (y : HeapM β) : Prop :=
  ∃ w a b, Corr w ∧ Later n v w ∧ w.left.top ≤ v.left.top + cost ∧
    HeapOp.Leads v.left w.left ∧ post w a b ∧ x v.left = .ok a w.left ∧ y v.right = .ok b w.right

namespace Completes

variable {n cost rest : Nat} {v : View} {α β γ δ : Type} {post : View → α → β → Prop}
  {last : View → γ → δ → Prop} {x : HeapM α} {y : HeapM β}

theorem of_agrees (op : HeapOp) (h : Agrees n v post x y) (hop : op.Valid v.left)
    (happly : op.apply v.left = v.left.after x)
    (hok : ∃ a g, x v.left = .ok a g ∧ g.top ≤ v.left.top + cost) :
    Completes n cost v post x y := by
  obtain ⟨a, g, hrun, htop⟩ := hok
  have hleads : HeapOp.Leads v.left g := by
    have hafter : v.left.after x = g := by rw [Heap.after, hrun]
    exact hafter ▸ happly ▸ .single op hop
  unfold Agrees at h
  unfold Completes
  rw [hrun] at h ⊢
  generalize y v.right = q at h ⊢
  cases h with
  | ok w hw hlater hpost => exact ⟨w, _, _, hw, hlater, htop, hleads, hpost, rfl, rfl⟩

theorem bind {f : α → HeapM γ} {g : β → HeapM δ} (h : Completes k cost v post x y) (hk : n ≤ k)
    (hnext : ∀ w a b, Corr w → Later k v w → w.left.top ≤ v.left.top + cost → post w a b →
      Completes n rest w last (f a) (g b)) :
    Completes n (cost + rest) v last (x >>= f) (y >>= g) := by
  obtain ⟨w, a, b, hw, hlater, htop, hleads, hpost, hrun, hrun'⟩ := h
  obtain ⟨u, c, d, hu, hlater', htop', hleads', hlast, hnext, hnext'⟩ :=
    hnext w a b hw hlater htop hpost
  refine ⟨u, c, d, hu, (hlater.mono hk).trans hlater', by omega, hleads.trans hleads', hlast, ?_, ?_⟩
  · rw [HeapM.bind_ok hrun, hnext]
  · rw [HeapM.bind_ok hrun', hnext']

theorem bind_free {f : α → HeapM γ} {g : β → HeapM δ} (h : Completes k cost v post x y) (hk : n ≤ k)
    (hnext : ∀ w a b, Corr w → Later k v w → w.left.top ≤ v.left.top + cost → post w a b →
      Completes n 0 w last (f a) (g b)) : Completes n cost v last (x >>= f) (y >>= g) := h.bind hk hnext

theorem pure {a : α} {b : β} (hv : Corr v) (hn : n ≤ v.left.roots.size) (h : post v a b) :
    Completes n cost v post (pure a) (pure b) :=
  ⟨v, a, b, hv, .refl hv hn, Nat.le_add_right _ _, .refl _, h, rfl, rfl⟩

/-- What is done after a step that costs nothing. -/
theorem of_step {w : View} {c : γ} {d : δ} {first : HeapM γ} {second : HeapM δ} {f : γ → HeapM α}
    {g : δ → HeapM β} (hlater : Later n v w) (hfirst : first v.left = .ok c w.left)
    (hsecond : second v.right = .ok d w.right) (htop : w.left.top = v.left.top)
    (hleads : HeapOp.Leads v.left w.left) (h : Completes n cost w post (f c) (g d)) :
    Completes n cost v post (first >>= f) (second >>= g) := by
  obtain ⟨u, a, b, hu, hlater', htop', hleads', hpost, hrun, hrun'⟩ := h
  refine ⟨u, a, b, hu, hlater.trans hlater', htop ▸ htop', hleads.trans hleads', hpost, ?_, ?_⟩
  · rw [HeapM.bind_ok hfirst, hrun]
  · rw [HeapM.bind_ok hsecond, hrun']

theorem attempt (h : Completes n cost v post x y) :
    Completes n cost v (fun w a b => ∃ c d, post w c d ∧ a = .ok c ∧ b = .ok d)
      (HeapM.attempt x) (HeapM.attempt y) := by
  obtain ⟨w, a, b, hw, hlater, htop, hleads, hpost, hrun, hrun'⟩ := h
  refine ⟨w, .ok a, .ok b, hw, hlater, htop, hleads, ⟨a, b, hpost, rfl, rfl⟩, ?_, ?_⟩
  · rw [HeapM.attempt, hrun]
  · rw [HeapM.attempt, hrun']

variable {a b i : Nat}

theorem root_bind {f : Nat → HeapM γ} {g : Nat → HeapM δ} (hv : Corr v) (hi : v.guard ≠ some i)
    (h : v.Rel (v.left.root i) (v.right.root i) →
      Completes n cost v last (f (v.left.root i)) (g (v.right.root i))) :
    Completes n cost v last (HeapM.root i >>= f) (HeapM.root i >>= g) :=
  h (hv.rel_root hi)

theorem pushRoot_bind {f : Nat → HeapM γ} {g : Nat → HeapM δ} (hv : Corr v)
    (hn : n ≤ v.left.roots.size) (hab : v.Rel a b)
    (h : ∀ w, RootPushed v a w →
      Completes n cost w last (f v.left.roots.size) (g v.left.roots.size)) :
    Completes n cost v last (HeapM.pushRoot a >>= f) (HeapM.pushRoot b >>= g) :=
  of_step (hv.later_pushRoots hab hn) rfl (by rw [hv.iso.size]; rfl) rfl
    (.single (.pushRoot a) ⟨List.forall_mem_singleton.mpr (hv.mem_left hab.1), (fun _ hr => nomatch hr),
      Nat.zero_le _⟩)
    (h _ (hv.rootPushed hab))

theorem releaseRoots_bind {f : Unit → HeapM γ} {g : Unit → HeapM δ} {count : Nat} (hv : Corr v)
    (hn : n ≤ v.left.roots.size) (hcount : n ≤ count) (hsize : count ≤ v.left.roots.size)
    (hg : ∀ s, v.guard = some s → s < count)
    (h : ∀ w, RootsReleased v count w → Completes n cost w last (f ()) (g ())) :
    Completes n cost v last (HeapM.releaseRoots count >>= f) (HeapM.releaseRoots count >>= g) :=
  of_step (hv.later_releaseRoots hg hn hcount) rfl rfl rfl
    (.single (.releaseRoots count) ⟨(fun _ hr => nomatch hr), (fun _ hr => nomatch hr), hsize⟩)
    (h _ (hv.rootsReleased hg))

end Completes

end ArenaScheme
