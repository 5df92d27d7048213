import ArenaScheme.Proofs.Changes

/-! Two heaps side by side. A view relates records of a left and a right heap that stand for each
other: related records match, their order is the same on both sides, and everything that a program
can start from is related. A collection on either side, or on both, keeps a view; so does every
change that is made on both sides alike.

A view may guard one root: the pair in that slot and the pair in its second field are then out of
reach of everything else, so that a program that runs in between cannot change them. -/

namespace ArenaScheme

open Memory Heap

variable {may : Effect → Prop} {g h : Heap} {i : Nat} {place : Nat → Nat} {kept : Nat → Prop}
  {rules : Rules}

/-- Records of two heaps that stand for each other. -/
structure Iso (left right : Heap) (rel : Nat → Nat → Prop) : Prop where
  left_mem : ∀ a b, rel a b → a ∈ left.records
  right_mem : ∀ a b, rel a b → b ∈ right.records
  order : ∀ a b c d, rel a b → rel c d → (a < c ↔ b < d)
  record : ∀ a b, rel a b → Matches rel left.memory a right.memory b
  size : left.roots.size = right.roots.size
  root : ∀ i < left.roots.size, rel (left.root i) (right.root i)
  symbols : Linked rel left.symbols right.symbols
  pinned_left : ∀ p ∈ left.records, left.memory.isPinned p = true → rel p p
  pinned_right : ∀ p ∈ right.records, right.memory.isPinned p = true → rel p p
  pinning : left.pinning = right.pinning

namespace Iso

variable {left right : Heap} {rel : Nat → Nat → Prop}

theorem flip (hi : Iso left right rel) : Iso right left fun b a => rel a b where
  left_mem b a h := hi.right_mem a b h
  right_mem b a h := hi.left_mem a b h
  order b a d c h h' := (hi.order a b c d h h').symm
  record b a h := (hi.record a b h).flip
  size := hi.size.symm
  root i hlt := hi.root i (hi.size ▸ hlt)
  symbols := hi.symbols.flip
  pinned_left := hi.pinned_right
  pinned_right := hi.pinned_left
  pinning := hi.pinning.symm

theorem eq_iff (hi : Iso left right rel) {a b c d : Nat} (h : rel a b) (h' : rel c d) :
    a = c ↔ b = d := by
  have h1 := hi.order a b c d h h'
  have h2 := hi.order c d a b h' h
  omega

/-- The records of the left heap may move. -/
theorem moveLeft (hi : Iso left right rel) (hs : left.Sound rules)
    (hr : left.Relocation kept place g) :
    Iso g right fun a b => ∃ p, Goes kept place p a ∧ rel p b := by
  refine ⟨?_, ?_, ?_, ?_, ?_, ?_, ?_, ?_, ?_, hr.pinning.trans hi.pinning⟩
  · rintro a b ⟨p, ⟨hkept, rfl⟩, -⟩
    exact hr.mem_records hkept
  · rintro a b ⟨p, -, hrel⟩
    exact hi.right_mem p b hrel
  · rintro a b c d ⟨p, ⟨hp, rfl⟩, hrel⟩ ⟨q, ⟨hq, rfl⟩, hrel'⟩
    exact (hr.lt_iff hp hq).trans (hi.order p b q d hrel hrel')
  · rintro a b ⟨p, ⟨hp, rfl⟩, hrel⟩
    refine (hr.record p hp).flip.comp (hi.record p b hrel) ?_ ?_
    · exact fun _ q hq => hs.wf.ne_absent (hr.mem q hq.1)
    · exact fun q c hq => hs.wf.ne_absent (hi.left_mem q c hq)
  · rw [hr.roots, Array.size_map]
    exact hi.size
  · intro i hlt
    rw [hr.roots, Array.size_map] at hlt
    exact ⟨left.root i, ⟨hr.root _ (root_mem hlt), (hr.root_eq hlt).symm⟩, hi.root i hlt⟩
  · refine hr.symbols.flip.comp hi.symbols ?_ ?_
    · exact fun hq => hs.wf.ne_absent (hr.mem _ hq.1)
    · exact fun hq => hs.wf.ne_absent (hi.left_mem _ _ hq)
  · intro p hp hpin
    obtain ⟨q, hkept, rfl⟩ := (hr.records p).mp hp
    rw [(hr.record q hkept).pinned] at hpin
    have hq := hr.mem q hkept
    have hplace := hs.place_pinned hr hq hpin
    rw [hplace]
    exact ⟨q, ⟨hkept, hplace⟩, hi.pinned_left q hq hpin⟩
  · intro p hp hpin
    have hrel := hi.pinned_right p hp hpin
    have hq := hi.left_mem p p hrel
    rw [(hi.record p p hrel).pinned] at hpin
    exact ⟨p, ⟨hr.pinned p hq hpin, hs.place_pinned hr hq hpin⟩, hrel⟩

theorem moveRight (hi : Iso left right rel) (hs : right.Sound rules)
    (hr : right.Relocation kept place g) :
    Iso left g fun a b => ∃ q, Goes kept place q b ∧ rel a q :=
  (hi.flip.moveLeft hs hr).flip

end Iso

/-- The pair at `p` is not referred to, and the pair in its second field, which starts with a
symbol that may be bound, only from there. -/
structure Secluded (h : Heap) (p : Nat) : Prop where
  pair : h.memory.kind p = .pair
  cell : h.memory.kind (h.memory.field p 1) = .pair
  name : h.Bindable (h.memory.field (h.memory.field p 1) 0)
  unshared : ∀ q ∈ h.records, ∀ k ∈ h.memory.referenceFields q, h.memory.field q k ≠ p
  only : ∀ q ∈ h.records, ∀ k ∈ h.memory.referenceFields q,
    h.memory.field q k = h.memory.field p 1 → q = p

/-- Two pairs can be reached through slot `s` and in no other way. -/
structure Guarded (h : Heap) (s : Nat) : Prop where
  lt : s < h.roots.size
  secluded : Secluded h (h.root s)
  roots : ∀ i < h.roots.size, i ≠ s →
    h.root i ≠ h.root s ∧ h.root i ≠ h.memory.field (h.root s) 1

structure View where
  rules : Rules
  left : Heap
  right : Heap
  rel : Nat → Nat → Prop
  /-- The slot that is guarded. -/
  guard : Option Nat
  /-- What a program may do. -/
  may : Effect → Prop

namespace View

/-- Whether a record of the left heap is out of guard. -/
def Visible (v : View) (a : Nat) : Prop :=
  ∀ s, v.guard = some s → a ≠ v.left.root s ∧ a ≠ v.left.memory.field (v.left.root s) 1

/-- The records that a program may hold. -/
def Rel (v : View) (a b : Nat) : Prop := v.rel a b ∧ v.Visible a

end View

/-- The two heaps of a view correspond. -/
structure Corr (v : View) : Prop where
  left : v.left.Sound v.rules
  right : v.right.Sound v.rules
  iso : Iso v.left v.right v.rel
  guarded : ∀ s, v.guard = some s → Guarded v.left s

/-- The view of a heap on itself. -/
def View.diagonal (rules : Rules) (may : Effect → Prop) (h : Heap) : View where
  rules := rules
  left := h
  right := h
  rel a b := a ∈ h.records ∧ a = b
  guard := none
  may := may

theorem View.diagonal_rel {r : Nat} (hr : r ∈ h.records) : (View.diagonal rules may h).Rel r r :=
  ⟨⟨hr, rfl⟩, fun _ hs => nomatch hs⟩

theorem Corr.diagonal (hs : h.Sound rules) (may : Effect → Prop) :
    Corr (View.diagonal rules may h) := by
  have hlink : ∀ r, r = absent ∨ r ∈ h.records →
      Linked (View.diagonal rules may h).rel r r := by
    rintro r (hr | hr)
    · exact Or.inl ⟨hr, hr⟩
    · exact Or.inr ⟨hr, rfl⟩
  refine ⟨hs, hs, ⟨fun _ _ hab => hab.1, ?_, ?_, ?_, rfl, ?_, hlink _ hs.wf.symbols,
    fun p hp _ => ⟨hp, rfl⟩, fun p hp _ => ⟨hp, rfl⟩, rfl⟩, ?_⟩
  · rintro a _ ⟨ha, rfl⟩
    exact ha
  · rintro a _ c _ ⟨-, rfl⟩ ⟨-, rfl⟩
    rfl
  · rintro a _ ⟨ha, rfl⟩
    exact .of_sameBody (SameBody.of_bytes fun _ _ => rfl) rfl fun k hk =>
      hlink _ (hs.wf.reference a ha k hk)
  · exact fun i hi => ⟨hs.wf.root _ (root_mem hi), rfl⟩
  · rintro s ⟨⟩

/-- Both heaps are the same, and every record corresponds to itself. -/
structure View.Single (v : View) : Prop where
  same : v.left = v.right
  eq : ∀ a b, v.rel a b → a = b

/-- What is bound comes in the same order in both heaps: the keys are symbols, or the heaps are the
same. -/
def View.Aligned (v : View) : Prop := v.rules.table = none ∨ v.Single

/-- The heaps stay aligned: a frame that may bind any record does not move. -/
structure View.Ordered (v : View) : Prop where
  aligned : v.Aligned
  pinned : ∀ t, v.rules.table = some t → t ∈ v.left.records ∧ v.left.memory.isPinned t = true

theorem View.Ordered.of_none {v : View} (h : v.rules.table = none) : v.Ordered :=
  ⟨Or.inl h, fun t ht => by rw [h] at ht; cases ht⟩

theorem View.single_diagonal : (View.diagonal rules may h).Single := ⟨rfl, fun _ _ hrel => hrel.2⟩

/-- The two views are held to the same terms. -/
structure SameTerms (v w : View) : Prop where
  rules : w.rules = v.rules
  guard : w.guard = v.guard
  may : w.may = v.may

/-- `w` comes after `v`, by steps that leave the first `n` slots in place. -/
structure Later (n : Nat) (v w : View) : Prop extends SameTerms v w where
  evolves : Evolves v.rules n v.may v.left w.left
  ordered : v.Ordered → w.Ordered

namespace Later

variable {n : Nat} {u v w : View}

theorem size (h : Later n v w) : n ≤ w.left.roots.size := h.evolves.size_right

theorem kind (h : Later n v w) (hi : i < n) :
    w.left.memory.kind (w.left.root i) = v.left.memory.kind (v.left.root i) := h.evolves.kind hi

theorem refl (hv : Corr v) (hn : n ≤ v.left.roots.size) : Later n v v :=
  ⟨⟨rfl, rfl, rfl⟩, .refl hv.left hn, id⟩

theorem trans (h : Later n u v) (g : Later n v w) : Later n u w := by
  refine ⟨⟨g.rules.trans h.rules, g.guard.trans h.guard, g.may.trans h.may⟩,
    h.evolves.trans ?_, fun ho => g.ordered (h.ordered ho)⟩
  rw [← h.rules, ← h.may]
  exact g.evolves

theorem mono {k : Nat} (h : Later n v w) (hk : k ≤ n) : Later k v w :=
  ⟨h.toSameTerms, h.evolves.mono hk, h.ordered⟩

theorem of_evolves (hterms : SameTerms v w) (hsingle : v.Single → w.Single)
    (h : Evolves v.rules n v.may v.left w.left) : Later n v w := by
  refine ⟨hterms, h, fun ho => ⟨?_, fun t ht => ?_⟩⟩
  · unfold View.Aligned
    rw [hterms.rules]
    exact ho.aligned.imp id hsingle
  · rw [hterms.rules] at ht
    obtain ⟨hmem, hpin⟩ := ho.pinned t ht
    have hlasts := h.pinned hmem hpin
    exact ⟨hlasts.mem, hlasts.pinned.trans hpin⟩

/-- One step, after which the heaps correspond. -/
theorem of_change (hv : Corr v) (hn : n ≤ v.left.roots.size) (hw : Corr w)
    (hn' : n ≤ w.left.roots.size) (hterms : SameTerms v w) (hsingle : v.Single → w.Single)
    (h : v.left.Change v.rules n v.may w.left) : Later n v w :=
  .of_evolves hterms hsingle (.of_change hv.left hn h (hterms.rules ▸ hw.left) hn')

end Later

namespace Corr

variable {v : View} {a b c d k : Nat}

theorem mem_left (hc : Corr v) (h : v.rel a b) : a ∈ v.left.records := hc.iso.left_mem a b h

theorem mem_right (hc : Corr v) (h : v.rel a b) : b ∈ v.right.records := hc.iso.right_mem a b h

/-- What a visible record refers to is visible. -/
theorem visible_field (hc : Corr v) (ha : a ∈ v.left.records) (hv : v.Visible a)
    (hk : k ∈ v.left.memory.referenceFields a) : v.Visible (v.left.memory.field a k) :=
  fun s hs =>
    have hg := (hc.guarded s hs).secluded
    ⟨hg.unshared a ha k hk, fun heq => (hv s hs).1 (hg.only a ha k hk heq)⟩

theorem matched (hc : Corr v) (h : v.Rel a b) :
    Matches v.Rel v.left.memory a v.right.memory b :=
  (hc.iso.record a b h.1).mono fun _ hk hrel =>
    ⟨hrel, hc.visible_field (hc.mem_left h.1) h.2 hk⟩

theorem eq_iff (hc : Corr v) (h : v.Rel a b) (h' : v.Rel c d) : a = c ↔ b = d :=
  hc.iso.eq_iff h.1 h'.1

theorem lt_iff (hc : Corr v) (h : v.Rel a b) (h' : v.Rel c d) : a < c ↔ b < d :=
  hc.iso.order a b c d h.1 h'.1

/-- A record that is not a pair is never under guard. -/
theorem visible_of_kind (hc : Corr v) (ha : v.left.memory.kind a ≠ .pair) : v.Visible a := by
  intro s hs
  have hg := (hc.guarded s hs).secluded
  refine ⟨?_, ?_⟩
  · rintro rfl
    exact ha hg.pair
  · rintro rfl
    exact ha hg.cell

theorem rel_pinned (hc : Corr v) (ha : a ∈ v.left.records)
    (hpin : v.left.memory.isPinned a = true) (hk : v.left.memory.kind a ≠ .pair) : v.Rel a a :=
  ⟨hc.iso.pinned_left a ha hpin, hc.visible_of_kind hk⟩

theorem fixtures_ne_pair : ∀ p ∈ fixtures, p.2 ≠ .pair := by decide

/-- The singletons stand for themselves. -/
theorem rel_fixture (hc : Corr v) {p : Nat × Kind} (hp : p ∈ fixtures) : v.Rel p.1 p.1 := by
  obtain ⟨hmem, hk, hpin⟩ := hc.left.fixture p hp
  exact hc.rel_pinned hmem hpin (hk ▸ fixtures_ne_pair p hp)

theorem rel_null (hc : Corr v) : v.Rel null null := hc.rel_fixture (p := (null, .null)) (by decide)

theorem rel_root (hc : Corr v) (hi : v.guard ≠ some i) :
    v.Rel (v.left.root i) (v.right.root i) := by
  by_cases hlt : i < v.left.roots.size
  · refine ⟨hc.iso.root i hlt, fun s hs => (hc.guarded s hs).roots i hlt ?_⟩
    rintro rfl
    exact hi hs
  · have hlt' : ¬ i < v.right.roots.size := hc.iso.size ▸ hlt
    simp only [Heap.root, Array.getElem?_eq_none (Nat.le_of_not_lt hlt),
      Array.getElem?_eq_none (Nat.le_of_not_lt hlt'), Option.getD_none]
    exact hc.rel_null

end Corr

end ArenaScheme
