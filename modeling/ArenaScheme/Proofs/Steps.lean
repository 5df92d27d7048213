import ArenaScheme.Proofs.Correspondence

/-! The steps that a correspondence survives: the records of one side move, the roots change on both
sides, a field is written on both sides, a record is added on both sides. -/

namespace ArenaScheme

open Memory Heap

variable {h : Heap} {left right : Memory} {c count d i k s : Nat} {place : Nat → Nat}
  {kept : Nat → Prop} {rules : Rules}

namespace Heap

/-- A field that must lead somewhere does. -/
theorem Sound.field_mem (hs : h.Sound rules) {r : Nat} (hr : r ∈ h.records)
    (hk : k ∈ h.memory.referenceFields r) (hmay : (h.memory.kind r).mayBeAbsent k = false) :
    h.memory.field r k ∈ h.records := by
  rcases hs.allowed r hr k hk with ⟨-, h'⟩ | ⟨hmem, -⟩
  · rw [hmay] at h'
    cases h'
  · exact hmem

theorem pair_references {m : Memory} {r : Nat} (h : m.kind r = .pair) :
    m.referenceFields r = [0, 1] := by
  simp only [referenceFields, h]

theorem Sound.pair_field_mem (hs : h.Sound rules) {r : Nat} (hr : r ∈ h.records)
    (hpair : h.memory.kind r = .pair) (hk : k < 2) : h.memory.field r k ∈ h.records := by
  refine hs.field_mem hr ?_ (by simp [hpair, Kind.mayBeAbsent])
  rw [pair_references hpair]
  have : k = 0 ∨ k = 1 := by omega
  simpa using this

/-- Where a record that is kept has a reference, its copy has one to where the target goes. -/
theorem Relocation.field_eq {g : Heap} (hr : h.Relocation kept place g) {r : Nat} (hkept : kept r)
    (hk : k ∈ h.memory.referenceFields r) (hne : h.memory.field r k ≠ absent) :
    kept (h.memory.field r k) ∧ g.memory.field (place r) k = place (h.memory.field r k) := by
  rcases (hr.record r hkept).reference k hk with ⟨habs, -⟩ | ⟨hkept', heq⟩
  · exact absurd habs hne
  · exact ⟨hkept', heq.symm⟩

end Heap

namespace Secluded

variable {h g : Heap} {p : Nat} {rules : Rules}

theorem cell_mem (hg : Secluded h p) (hs : h.Sound rules) (hp : p ∈ h.records) :
    h.memory.field p 1 ∈ h.records :=
  hs.pair_field_mem hp hg.pair (by omega)

theorem withRoots (hg : Secluded h p) (roots : Array Ref) : Secluded { h with roots } p :=
  ⟨hg.pair, hg.cell, ⟨hg.name.kind, hg.name.free⟩, hg.unshared, hg.only⟩

/-- The second pair goes where the first one leads afterwards. -/
theorem field_eq (hg : Secluded h p) (hs : h.Sound rules) (hr : h.Relocation kept place g)
    (hp : kept p) :
    kept (h.memory.field p 1) ∧ g.memory.field (place p) 1 = place (h.memory.field p 1) :=
  hr.field_eq hp (by rw [pair_references hg.pair]; decide)
    (hs.wf.ne_absent (hg.cell_mem hs (hr.mem p hp)))

theorem relocate (hg : Secluded h p) (hs : h.Sound rules) (hr : h.Relocation kept place g)
    (hp : kept p) : Secluded g (place p) := by
  obtain ⟨hO, hfield⟩ := hg.field_eq hs hr hp
  obtain ⟨hname, hfield'⟩ := hr.field_eq hO (k := 0) (by rw [pair_references hg.cell]; decide)
    (hs.wf.ne_absent (hs.pair_field_mem (hr.mem _ hO) hg.cell (by omega)))
  -- A reference of the copy to a record that moved comes from a reference to that record.
  have hback : ∀ q k t, kept q → k ∈ g.memory.referenceFields (place q) → kept t →
      g.memory.field (place q) k = place t →
      k ∈ h.memory.referenceFields q ∧ h.memory.field q k = t := by
    intro q k t hq hk ht heq
    rw [(hr.record q hq).referenceFields] at hk
    refine ⟨hk, ?_⟩
    rcases (hr.record q hq).reference k hk with ⟨-, habs⟩ | ⟨hkept, heq'⟩
    · exact absurd (heq.symm.trans habs) (hr.wellFormed.ne_absent (hr.mem_records ht))
    · exact hr.injective hkept ht (heq'.trans heq)
  refine ⟨?_, ?_, ?_, ?_, ?_⟩
  · rw [(hr.record p hp).kind, hg.pair]
  · rw [hfield, (hr.record _ hO).kind, hg.cell]
  · rw [hfield, hfield']
    exact hg.name.matched (hr.record _ hname)
  · intro q hq k hk heq
    obtain ⟨q, hkept, rfl⟩ := (hr.records q).mp hq
    obtain ⟨hk', heq'⟩ := hback q k p hkept hk hp heq
    exact hg.unshared q (hr.mem q hkept) k hk' heq'
  · intro q hq k hk heq
    obtain ⟨q, hkept, rfl⟩ := (hr.records q).mp hq
    rw [hfield] at heq
    obtain ⟨hk', heq'⟩ := hback q k _ hkept hk hO heq
    rw [hg.only q (hr.mem q hkept) k hk' heq']

end Secluded

namespace Guarded

variable {h g : Heap} {s : Nat} {rules : Rules}

theorem root_mem (hg : Guarded h s) (wf : h.WellFormed) : h.root s ∈ h.records :=
  wf.root _ (Heap.root_mem hg.lt)

theorem relocate (hg : Guarded h s) (hs : h.Sound rules) (hr : h.Relocation kept place g) :
    Guarded g s := by
  have hF := hr.root _ (Heap.root_mem hg.lt)
  obtain ⟨hO, hfield⟩ := hg.secluded.field_eq hs hr hF
  refine ⟨by rw [hr.roots, Array.size_map]; exact hg.lt, ?_, fun i hi hne => ?_⟩
  · rw [hr.root_eq hg.lt]
    exact hg.secluded.relocate hs hr hF
  · rw [hr.roots, Array.size_map] at hi
    obtain ⟨h1, h2⟩ := hg.roots i hi hne
    have hkept := hr.root _ (Heap.root_mem hi)
    rw [hr.root_eq hi, hr.root_eq hg.lt, hfield]
    exact ⟨fun heq => h1 (hr.injective hkept hF heq), fun heq => h2 (hr.injective hkept hO heq)⟩

end Guarded

namespace View

/-- The view after the records of the left heap have moved. -/
def moveLeft (v : View) (kept : Nat → Prop) (place : Nat → Nat) (g : Heap) : View :=
  { v with left := g, rel := fun a b => ∃ p, Goes kept place p a ∧ v.rel p b }

/-- The view after the records of the right heap have moved. -/
def moveRight (v : View) (kept : Nat → Prop) (place : Nat → Nat) (g : Heap) : View :=
  { v with right := g, rel := fun a b => ∃ q, Goes kept place q b ∧ v.rel a q }

/-- The view with other roots. -/
def withRoots (v : View) (left right : Array Ref) : View :=
  { v with left := { v.left with roots := left }, right := { v.right with roots := right } }

def pushRoots (v : View) (a b : Nat) : View :=
  v.withRoots (v.left.roots.push a) (v.right.roots.push b)

def setRoots (v : View) (i a b : Nat) : View :=
  v.withRoots (v.left.roots.setIfInBounds i a) (v.right.roots.setIfInBounds i b)

def releaseRoots (v : View) (count : Nat) : View :=
  v.withRoots (v.left.roots.shrink count) (v.right.roots.shrink count)

/-- The view with other memories. -/
def withMemory (v : View) (left right : Memory) : View :=
  { v with left := { v.left with memory := left }, right := { v.right with memory := right } }

/-- The view with a further record at the top of each heap. -/
def push (v : View) (size : Nat) (left right : Memory) : View :=
  { v with
    left := { v.left with memory := left, top := v.left.top + size }
    right := { v.right with memory := right, top := v.right.top + size }
    rel := fun a b => v.rel a b ∨ (a = v.left.top ∧ b = v.right.top) }

/-! The same step on both sides of one heap. -/

namespace Single

variable {v : View}

theorem move (hs : v.Single) (kept : Nat → Prop) (place : Nat → Nat) (g : Heap) :
    ((v.moveLeft kept place g).moveRight kept place g).Single := by
  refine ⟨rfl, ?_⟩
  rintro a b ⟨q, ⟨-, rfl⟩, p, ⟨-, rfl⟩, hrel⟩
  rw [hs.eq p q hrel]

theorem withRoots {left right : Array Ref} (hs : v.Single) (h : left = right) :
    (v.withRoots left right).Single :=
  ⟨by unfold View.withRoots; rw [hs.same, h], hs.eq⟩

theorem withMemory (hs : v.Single) (h : left = right) : (v.withMemory left right).Single :=
  ⟨by unfold View.withMemory; rw [hs.same, h], hs.eq⟩

theorem push (hs : v.Single) (size : Nat) (h : left = right) : (v.push size left right).Single := by
  refine ⟨by unfold View.push; rw [hs.same, h], ?_⟩
  rintro a b (hrel | ⟨rfl, rfl⟩)
  · exact hs.eq a b hrel
  · rw [hs.same]

end Single

end View

namespace Corr

variable {v : View} {kept : Nat → Prop} {place : Nat → Nat} {g : Heap} {a b n : Nat}

theorem moveLeft (hc : Corr v) (hr : v.left.Relocation kept place g) :
    Corr (v.moveLeft kept place g) where
  left := hc.left.relocate hr
  right := hc.right
  iso := hc.iso.moveLeft hc.left hr
  guarded s hs := (hc.guarded s hs).relocate hc.left hr

theorem evolves_move (hc : Corr v) (hr : v.left.Relocation kept place g)
    (hn : n ≤ v.left.roots.size) : Evolves v.rules n v.may v.left g :=
  .of_change hc.left hn (.move hr) (hc.left.relocate hr)
    (by rw [hr.roots, Array.size_map]; exact hn)

/-- Where only symbols are bound, one heap may move alone. -/
theorem later_moveLeft (hc : Corr v) (htable : v.rules.table = none)
    (hr : v.left.Relocation kept place g) (hn : n ≤ v.left.roots.size) :
    Later n v (v.moveLeft kept place g) :=
  ⟨⟨rfl, rfl, rfl⟩, hc.evolves_move hr hn, fun _ => .of_none htable⟩

theorem rel_moveLeft (hc : Corr v) (hr : v.left.Relocation kept place g) (h : v.Rel a b)
    (ha : kept a) : (v.moveLeft kept place g).Rel (place a) b := by
  refine ⟨⟨a, ⟨ha, rfl⟩, h.1⟩, fun s hs => ?_⟩
  have hg := hc.guarded s hs
  have hF := hr.root _ (root_mem hg.lt)
  obtain ⟨hO, hfield⟩ := hg.secluded.field_eq hc.left hr hF
  obtain ⟨h1, h2⟩ := h.2 s hs
  change place a ≠ g.root s ∧ place a ≠ g.memory.field (g.root s) 1
  rw [hr.root_eq hg.lt, hfield]
  exact ⟨fun heq => h1 (hr.injective ha hF heq), fun heq => h2 (hr.injective ha hO heq)⟩

theorem moveRight (hc : Corr v) (hr : v.right.Relocation kept place g) :
    Corr (v.moveRight kept place g) where
  left := hc.left
  right := hc.right.relocate hr
  iso := hc.iso.moveRight hc.right hr
  guarded := hc.guarded

theorem later_moveRight (hc : Corr v) (htable : v.rules.table = none) (kept : Nat → Prop)
    (place : Nat → Nat) (g : Heap) (hn : n ≤ v.left.roots.size) :
    Later n v (v.moveRight kept place g) :=
  ⟨⟨rfl, rfl, rfl⟩, .refl hc.left hn, fun _ => .of_none htable⟩

/-- Both heaps move, in the same way if they are one. -/
theorem later_move (hc : Corr v) (hr : v.left.Relocation kept place g) {kept' : Nat → Prop}
    {place' : Nat → Nat} {g' : Heap} (hn : n ≤ v.left.roots.size)
    (hsame : v.Single → kept' = kept ∧ place' = place ∧ g' = g) :
    Later n v ((v.moveLeft kept place g).moveRight kept' place' g') := by
  refine .of_evolves ⟨rfl, rfl, rfl⟩ (fun hs => ?_) (hc.evolves_move hr hn)
  obtain ⟨rfl, rfl, rfl⟩ := hsame hs
  exact hs.move _ _ _

theorem rel_moveRight (h : v.Rel a b) (hb : kept b) :
    (v.moveRight kept place g).Rel a (place b) :=
  ⟨⟨b, ⟨hb, rfl⟩, h.1⟩, h.2⟩

/-! Other roots. -/

variable {l r : Array Ref}

theorem withRoots (hc : Corr v) (hsize : l.size = r.size)
    (hrel : ∀ i < l.size, v.rel (l[i]?.getD null) (r[i]?.getD null))
    (hguard : ∀ s, v.guard = some s → s < l.size ∧ l[s]?.getD null = v.left.root s ∧
      ∀ i < l.size, i ≠ s → v.Visible (l[i]?.getD null)) : Corr (v.withRoots l r) := by
  have hmem : ∀ x ∈ l, x ∈ v.left.records := by
    intro x hx
    obtain ⟨i, hi, rfl⟩ := Array.mem_iff_getElem.mp hx
    have := hc.mem_left (hrel i hi)
    rwa [Array.getElem?_eq_getElem hi] at this
  have hmem' : ∀ x ∈ r, x ∈ v.right.records := by
    intro x hx
    obtain ⟨i, hi, rfl⟩ := Array.mem_iff_getElem.mp hx
    have := hc.mem_right (hrel i (hsize ▸ hi))
    rwa [Array.getElem?_eq_getElem hi] at this
  refine ⟨hc.left.withRoots l hmem, hc.right.withRoots r hmem',
    { hc.iso with size := hsize, root := hrel }, fun s hs => ?_⟩
  obtain ⟨hlt, hroot, hvis⟩ := hguard s hs
  have hg := hc.guarded s hs
  have heq : { v.left with roots := l }.root s = v.left.root s := hroot
  refine ⟨hlt, ?_, fun i hi hne => ?_⟩
  · change Secluded { v.left with roots := l } ({ v.left with roots := l }.root s)
    rw [heq]
    exact hg.secluded.withRoots l
  · change _ ≠ { v.left with roots := l }.root s ∧
      _ ≠ v.left.memory.field ({ v.left with roots := l }.root s) 1
    rw [heq]
    exact hvis i hi hne s hs

theorem rel_withRoots (hroot : ∀ s, v.guard = some s → l[s]?.getD null = v.left.root s)
    (h : v.Rel a b) : (v.withRoots l r).Rel a b := by
  refine ⟨h.1, fun s hs => ?_⟩
  have heq : { v.left with roots := l }.root s = v.left.root s := hroot s hs
  change a ≠ { v.left with roots := l }.root s ∧
    a ≠ v.left.memory.field ({ v.left with roots := l }.root s) 1
  rw [heq]
  exact h.2 s hs

theorem later_withRoots (hc : Corr v) (hn : n ≤ v.left.roots.size) (hw : Corr (v.withRoots l r))
    (hsize : n ≤ l.size) (hsame : v.Single → l = r)
    (hroot : ∀ i < n, l[i]?.getD null = v.left.root i) : Later n v (v.withRoots l r) :=
  .of_change hc hn hw hsize ⟨rfl, rfl, rfl⟩ (fun hs => hs.withRoots (hsame hs))
    (.roots l (fun _ hx => hw.left.wf.root _ hx) hsize hroot)

theorem root_of_pushRoots (v : View) (a b : Nat) (hi : i ≠ v.left.roots.size) :
    (v.pushRoots a b).left.root i = v.left.root i := by
  change (v.left.roots.push a)[i]?.getD null = _
  rw [Array.getElem?_push, if_neg hi]
  rfl

theorem root_of_pushRoots_self (v : View) (a b : Nat) :
    (v.pushRoots a b).left.root v.left.roots.size = a := by
  change (v.left.roots.push a)[v.left.roots.size]?.getD null = _
  rw [Array.getElem?_push, if_pos rfl]
  rfl

theorem size_pushRoots (v : View) (a b : Nat) :
    (v.pushRoots a b).left.roots.size = v.left.roots.size + 1 := Array.size_push _

theorem pushRoots (hc : Corr v) (h : v.Rel a b) : Corr (v.pushRoots a b) := by
  have hpush : ∀ i, (v.left.roots.push a)[i]?.getD null =
      if i = v.left.roots.size then a else v.left.root i := fun i => by
    rw [Array.getElem?_push]
    split <;> rfl
  refine hc.withRoots ?_ (fun i hi => ?_) fun s hs => ?_
  · rw [Array.size_push, Array.size_push, hc.iso.size]
  · rw [hpush, Array.getElem?_push, ← hc.iso.size]
    rw [Array.size_push] at hi
    split
    · exact h.1
    · exact hc.iso.root i (by omega)
  · have hg := hc.guarded s hs
    refine ⟨by rw [Array.size_push]; exact Nat.lt_succ_of_lt hg.lt, ?_, fun i hi hne => ?_⟩
    · rw [hpush, if_neg (Nat.ne_of_lt hg.lt)]
    · rw [hpush]
      rw [Array.size_push] at hi
      split
      · exact h.2
      · intro s' hs'
        obtain rfl : s = s' := by simpa using hs.symm.trans hs'
        exact hg.roots i (by omega) hne

theorem rel_pushRoots (hc : Corr v) (h : v.Rel c d) : (v.pushRoots a b).Rel c d :=
  rel_withRoots (fun s hs => by
    rw [Array.getElem?_push, if_neg (Nat.ne_of_lt (hc.guarded s hs).lt)]
    rfl) h

theorem later_pushRoots (hc : Corr v) (h : v.Rel a b) (hn : n ≤ v.left.roots.size) :
    Later n v (v.pushRoots a b) :=
  later_withRoots hc hn (hc.pushRoots h) (by rw [Array.size_push]; omega)
    (fun hs => by rw [hs.same, hs.eq a b h.1]) fun i hi => by
    rw [Array.getElem?_push, if_neg (by omega)]
    rfl

theorem setRoots (hc : Corr v) (h : v.Rel a b) (hi : v.guard ≠ some i) :
    Corr (v.setRoots i a b) := by
  have hset : ∀ j, (v.left.roots.setIfInBounds i a)[j]?.getD null =
      if i = j ∧ i < v.left.roots.size then a else v.left.root j := fun j => by
    rw [Array.getElem?_setIfInBounds]
    by_cases hij : i = j
    · subst hij
      by_cases hlt : i < v.left.roots.size
      · simp [hlt]
      · simp [hlt, Heap.root]
    · simp [hij, Heap.root]
  refine hc.withRoots ?_ (fun j hj => ?_) fun s hs => ?_
  · rw [Array.size_setIfInBounds, Array.size_setIfInBounds, hc.iso.size]
  · rw [Array.size_setIfInBounds] at hj
    rw [hset, Array.getElem?_setIfInBounds, ← hc.iso.size]
    by_cases hij : i = j
    · subst hij
      simp only [hj, and_self, ↓reduceIte, Option.getD_some]
      exact h.1
    · simp only [hij, false_and, ↓reduceIte]
      exact hc.iso.root j hj
  · have hg := hc.guarded s hs
    refine ⟨by rw [Array.size_setIfInBounds]; exact hg.lt, ?_, fun j hj hne => ?_⟩
    · rw [hset, if_neg]
      rintro ⟨rfl, -⟩
      exact hi hs
    · rw [Array.size_setIfInBounds] at hj
      rw [hset]
      split
      · exact h.2
      · intro s' hs'
        obtain rfl : s = s' := by simpa using hs.symm.trans hs'
        exact hg.roots j hj hne

theorem root_of_setRoots (v : View) (a b : Nat) {j : Nat} (hij : i ≠ j) :
    (v.setRoots i a b).left.root j = v.left.root j := by
  change (v.left.roots.setIfInBounds i a)[j]?.getD null = _
  rw [Array.getElem?_setIfInBounds, if_neg hij]
  rfl

theorem root_of_setRoots_self (v : View) (a b : Nat) (hi : i < v.left.roots.size) :
    (v.setRoots i a b).left.root i = a := by
  change (v.left.roots.setIfInBounds i a)[i]?.getD null = _
  rw [Array.getElem?_setIfInBounds, if_pos rfl, if_pos hi]
  rfl

theorem size_setRoots (v : View) (i a b : Nat) :
    (v.setRoots i a b).left.roots.size = v.left.roots.size := Array.size_setIfInBounds

theorem rel_setRoots (hi : v.guard ≠ some i) (h : v.Rel c d) : (v.setRoots i a b).Rel c d :=
  rel_withRoots (fun s hs => by
    rw [Array.getElem?_setIfInBounds, if_neg]
    · rfl
    · rintro rfl
      exact hi hs) h

theorem later_setRoots (hc : Corr v) (h : v.Rel a b) (hg : v.guard ≠ some i)
    (hn : n ≤ v.left.roots.size) (hi : n ≤ i) : Later n v (v.setRoots i a b) :=
  later_withRoots hc hn (hc.setRoots h hg) (by rw [Array.size_setIfInBounds]; exact hn)
    (fun hs => by rw [hs.same, hs.eq a b h.1]) fun j hj => by
    rw [Array.getElem?_setIfInBounds, if_neg (by omega)]
    rfl

theorem getElem?_shrink (xs : Array Ref) (count i : Nat) :
    (xs.shrink count)[i]? = if i < count then xs[i]? else none := by
  rw [Array.shrink_eq_take, Array.take, Array.getElem?_extract]
  simp only [Nat.zero_add, Nat.sub_zero]
  by_cases hi : i < count
  · by_cases hs : i < xs.size
    · rw [if_pos (by omega), if_pos hi]
    · rw [if_neg (by omega), if_pos hi, Array.getElem?_eq_none (by omega)]
  · rw [if_neg (by omega), if_neg hi]

theorem releaseRoots (hc : Corr v) (hg : ∀ s, v.guard = some s → s < count) :
    Corr (v.releaseRoots count) := by
  have hshrink : ∀ i < count, (v.left.roots.shrink count)[i]?.getD null = v.left.root i :=
    fun i hi => by
      rw [getElem?_shrink, if_pos hi]
      rfl
  refine hc.withRoots ?_ (fun i hi => ?_) fun s hs => ?_
  · rw [Array.size_shrink, Array.size_shrink, hc.iso.size]
  · rw [Array.size_shrink] at hi
    rw [hshrink i (by omega), getElem?_shrink, if_pos (by omega)]
    exact hc.iso.root i (by omega)
  · have hold := hc.guarded s hs
    have hlt := hg s hs
    refine ⟨?_, hshrink s hlt, fun i hi hne => ?_⟩
    · rw [Array.size_shrink]
      have := hold.lt
      omega
    · rw [Array.size_shrink] at hi
      rw [hshrink i (by omega)]
      intro s' hs'
      obtain rfl : s = s' := by simpa using hs.symm.trans hs'
      exact hold.roots i (by omega) hne

theorem root_of_releaseRoots (v : View) (hi : i < count) :
    (v.releaseRoots count).left.root i = v.left.root i := by
  change (v.left.roots.shrink count)[i]?.getD null = _
  rw [getElem?_shrink, if_pos hi]
  rfl

theorem size_releaseRoots (v : View) (count : Nat) :
    (v.releaseRoots count).left.roots.size = min count v.left.roots.size := Array.size_shrink

theorem rel_releaseRoots (hg : ∀ s, v.guard = some s → s < count) (h : v.Rel c d) :
    (v.releaseRoots count).Rel c d :=
  rel_withRoots (fun s hs => by
    rw [getElem?_shrink, if_pos (hg s hs)]
    rfl) h

theorem later_releaseRoots (hc : Corr v) (hg : ∀ s, v.guard = some s → s < count)
    (hn : n ≤ v.left.roots.size) (hcount : n ≤ count) : Later n v (v.releaseRoots count) :=
  later_withRoots hc hn (hc.releaseRoots hg) (by rw [Array.size_shrink]; omega)
    (fun hs => by rw [hs.same]) fun i hi => by
    rw [getElem?_shrink, if_pos (by omega)]
    rfl

/-! One field. -/

variable {x y k t u : Nat} {m m' : Memory}

/-- What may stand in a field on the left may stand there on the right. -/
theorem allowed_right (hc : Corr v) (hrel : v.rel x y) (hlink : Linked v.rel t u)
    (h : v.left.Allowed v.rules x k t) : v.right.Allowed v.rules y k u := by
  unfold Allowed at h ⊢
  rw [(hc.iso.record x y hrel).kind]
  rcases hlink with ⟨ht, hu⟩ | hlink
  · rw [ht] at h
    rcases h with ⟨-, hmay⟩ | ⟨hmem, -⟩
    · exact Or.inl ⟨hu, hmay⟩
    · exact absurd rfl (hc.left.wf.ne_absent hmem)
  · rcases h with ⟨habs, -⟩ | ⟨-, hfits⟩
    · exact absurd habs (hc.left.wf.ne_absent (hc.mem_left hlink))
    · rw [(hc.iso.record t u hlink).kind]
      exact Or.inr ⟨hc.mem_right hlink, hfits.congr (hc.iso.order _ _ _ _ hrel hlink).mp
        (hc.iso.order _ _ _ _ hlink hrel).mp⟩

/-- The guarded pairs keep their contents when a visible record changes. -/
theorem guard_setField (hc : Corr v) (hx : v.Visible x)
    (hm : FieldSet v.left.records v.left.memory x k t m) (hs : v.guard = some s) :
    (∀ l < 2, m.field (v.left.root s) l = v.left.memory.field (v.left.root s) l) ∧
      ∀ l < 2, m.field (v.left.memory.field (v.left.root s) 1) l =
        v.left.memory.field (v.left.memory.field (v.left.root s) 1) l := by
  have hg := hc.guarded s hs
  obtain ⟨h1, h2⟩ := hx s hs
  have hF := hg.root_mem hc.left.wf
  have hsize : ∀ q, v.left.memory.kind q = .pair → v.left.memory.extent q = 13 := fun q hq => by
    simp only [Memory.extent, hq]
    rfl
  refine ⟨fun l hl => hm.field hF (fun h => absurd h.symm h1) ?_,
    fun l hl => hm.field (hg.secluded.cell_mem hc.left hF) (fun h => absurd h.symm h2) ?_⟩
  · rw [hsize _ hg.secluded.pair]
    omega
  · rw [hsize _ hg.secluded.cell]
    omega

theorem visible_absent (hc : Corr v) : v.Visible absent := by
  intro s hs
  have hg := hc.guarded s hs
  have hF := hg.root_mem hc.left.wf
  exact ⟨(hc.left.wf.ne_absent hF).symm,
    (hc.left.wf.ne_absent (hg.secluded.cell_mem hc.left hF)).symm⟩

theorem visible_linked (hc : Corr v) (h : Linked v.Rel t u) : v.Visible t := by
  rcases h with ⟨rfl, -⟩ | h
  · exact hc.visible_absent
  · exact h.2

theorem guarded_setField (hc : Corr v) (hx : v.Visible x)
    (hm : FieldSet v.left.records v.left.memory x k t m)
    (hx' : v.left.memory.kind x = .symbol → k ∈ v.left.memory.referenceFields x)
    (ht : k ∈ v.left.memory.referenceFields x → v.Visible t) (hs : v.guard = some s) :
    Guarded { v.left with memory := m } s := by
  have hrecords : { v.left with memory := m }.records = v.left.records :=
    hc.left.records_setField hm
  have hg := hc.guarded s hs
  have hF := hg.root_mem hc.left.wf
  have hO := hg.secluded.cell_mem hc.left hF
  obtain ⟨hfirst, hsecond⟩ := hc.guard_setField hx hm hs
  -- The value that is written is visible, so that it is none of the two pairs.
  have hold : ∀ q ∈ v.left.records, ∀ l ∈ m.referenceFields q, q = x ∧ l = k ∧
      v.Visible (m.field q l) ∨ l ∈ v.left.memory.referenceFields q ∧
        m.field q l = v.left.memory.field q l := by
    intro q hq l hl
    rw [hm.references q hq] at hl
    by_cases hin : q = x ∧ l = k
    · obtain ⟨rfl, rfl⟩ := hin
      refine Or.inl ⟨rfl, rfl, ?_⟩
      rw [hm.self]
      exact ht hl
    · exact Or.inr ⟨hl, hm.field hq (fun h1 h2 => hin ⟨h1, h2⟩) (field_end_le_extent hl)⟩
  refine ⟨hg.lt, ⟨?_, ?_, ?_, ?_, ?_⟩, ?_⟩
  · exact (hm.kind hF).trans hg.secluded.pair
  · change m.kind (m.field (v.left.root s) 1) = _
    rw [hfirst 1 (by omega), hm.kind hO, hg.secluded.cell]
  · change Heap.Bindable _ (m.field (m.field (v.left.root s) 1) 0)
    rw [hfirst 1 (by omega), hsecond 0 (by omega)]
    refine hg.secluded.name.matched (hm.matches_self
      (hc.left.pair_field_mem hO hg.secluded.cell (by omega)) fun heq => hx' ?_)
    rw [← heq, hg.secluded.name.kind]
  · rw [hrecords]
    intro q hq l hl
    change m.field q l ≠ v.left.root s
    rcases hold q hq l hl with ⟨-, -, hvis⟩ | ⟨hl', heq⟩
    · exact (hvis s hs).1
    · rw [heq]
      exact hg.secluded.unshared q hq l hl'
  · rw [hrecords]
    intro q hq l hl
    change m.field q l = m.field (v.left.root s) 1 → q = v.left.root s
    rw [hfirst 1 (by omega)]
    rcases hold q hq l hl with ⟨-, -, hvis⟩ | ⟨hl', heq⟩
    · exact fun h => absurd h (hvis s hs).2
    · rw [heq]
      exact hg.secluded.only q hq l hl'
  · intro i hi hne
    change _ ∧ v.left.root i ≠ m.field (v.left.root s) 1
    rw [hfirst 1 (by omega)]
    exact hg.roots i hi hne

theorem setField (hc : Corr v) (hxy : v.Rel x y)
    (hm : FieldSet v.left.records v.left.memory x k t m)
    (hm' : FieldSet v.right.records v.right.memory y k u m')
    (hsymbol : v.left.memory.kind x = .symbol → k ∈ v.left.memory.referenceFields x)
    (href : k ∈ v.left.memory.referenceFields x →
      Linked v.Rel t u ∧ v.left.Allowed v.rules x k t)
    (hplain : k ∉ v.left.memory.referenceFields x → t = u) : Corr (v.withMemory m m') := by
  have hrefs := (hc.iso.record x y hxy.1).referenceFields
  have hlinked : k ∈ v.left.memory.referenceFields x → Linked v.rel t u := fun hk =>
    (href hk).1.mono And.left
  have hleft := hc.left.setField hm fun hk => (href hk).2
  have hright := hc.right.setField hm' fun hk =>
    hc.allowed_right hxy.1 (hlinked (hrefs ▸ hk)) (href (hrefs ▸ hk)).2
  have hrecords : (v.withMemory m m').left.records = v.left.records := hc.left.records_setField hm
  have hrecords' : (v.withMemory m m').right.records = v.right.records :=
    hc.right.records_setField hm'
  refine ⟨hleft, hright, ⟨?_, ?_, hc.iso.order, ?_, hc.iso.size, hc.iso.root, hc.iso.symbols, ?_, ?_,
    hc.iso.pinning⟩, ?_⟩
  · rw [hrecords]
    exact hc.iso.left_mem
  · rw [hrecords']
    exact hc.iso.right_mem
  · exact fun a b hrel => hm.matched hm' (hc.mem_left hrel) (hc.mem_right hrel)
      (hc.iso.eq_iff hrel hxy.1) (hc.iso.record a b hrel) ⟨hlinked, hplain⟩
  · rw [hrecords]
    exact fun p hp hpin => hc.iso.pinned_left p hp
      ((isPinned_eq_of_byte (hm.header p hp)).symm.trans hpin)
  · rw [hrecords']
    exact fun p hp hpin => hc.iso.pinned_right p hp
      ((isPinned_eq_of_byte (hm'.header p hp)).symm.trans hpin)
  · exact fun s hs => hc.guarded_setField hxy.2 hm hsymbol (fun hk => hc.visible_linked (href hk).1) hs

theorem rel_setField (hc : Corr v) (hx : v.Visible x)
    (hm : FieldSet v.left.records v.left.memory x k t m) (h : v.Rel a b) :
    (v.withMemory m m').Rel a b := by
  refine ⟨h.1, fun s hs => ?_⟩
  change a ≠ v.left.root s ∧ a ≠ m.field (v.left.root s) 1
  rw [(hc.guard_setField hx hm hs).1 1 (by omega)]
  exact h.2 s hs

theorem later_setField (hc : Corr v) (hn : n ≤ v.left.roots.size) (hx : x ∈ v.left.records)
    (hm : FieldSet v.left.records v.left.memory x k t m) (hw : Corr (v.withMemory m m'))
    (hsame : v.Single → m = m') {effect : Effect} (heffect : v.left.fieldEffect x k = some effect)
    (hmay : v.may effect) : Later n v (v.withMemory m m') :=
  .of_change hc hn hw hn ⟨rfl, rfl, rfl⟩ (fun hs => hs.withMemory (hsame hs))
    (.field hx hm heffect hmay)

/-! One record more. -/

variable {kind : Kind} {words words' : List Nat} {bytes : List UInt8} {size : Nat}

/-- As long as everything is pinned, the two heaps are laid out alike. -/
theorem top_eq_of_pinning (hc : Corr v) (hpinning : v.left.pinning = true) :
    v.left.top = v.right.top := by
  have hall := hc.left.pinning hpinning
  have hall' := hc.right.pinning (hc.iso.pinning ▸ hpinning)
  have hleft : ∀ p ∈ v.left.records, ∃ q ∈ v.right.records, v.rel p q := fun p hp =>
    have hrel := hc.iso.pinned_left p hp (hall p hp)
    ⟨p, hc.mem_right hrel, hrel⟩
  have hright : ∀ q ∈ v.right.records, ∃ p ∈ v.left.records, v.rel p q := fun q hq =>
    have hrel := hc.iso.pinned_right q hq (hall' q hq)
    ⟨q, hc.mem_left hrel, hrel⟩
  have := hc.left.wf.tiled.length_eq_of_rel hc.right.wf.tiled hleft hright hc.iso.order
    fun a b hrel => (hc.iso.record a b hrel).extent
  omega

section

variable (hc : Corr v) (hl : v.left.Pushed v.rules kind words bytes size m)
include hc hl

theorem iso_push (hr : v.right.Pushed v.rules kind words' bytes size m')
    (hmatch : Matches v.rel m v.left.top m' v.right.top) :
    Iso (v.push size m m').left (v.push size m m').right (v.push size m m').rel := by
  have hrecords : (v.push size m m').left.records = v.left.records ++ [v.left.top] :=
    hl.records hc.left.wf
  have hrecords' : (v.push size m m').right.records = v.right.records ++ [v.right.top] :=
    hr.records hc.right.wf
  have hlt : ∀ a b, v.rel a b → a < v.left.top ∧ b < v.right.top := fun a b hrel =>
    ⟨hc.left.wf.lt_top (hc.mem_left hrel), hc.right.wf.lt_top (hc.mem_right hrel)⟩
  refine ⟨?_, ?_, ?_, ?_, hc.iso.size, fun i hi => Or.inl (hc.iso.root i hi),
    hc.iso.symbols.mono Or.inl, ?_, ?_, hc.iso.pinning⟩
  · rintro a b (hrel | ⟨rfl, -⟩)
    · rw [hrecords]
      exact List.mem_append_left _ (hc.mem_left hrel)
    · simp [hrecords]
  · rintro a b (hrel | ⟨-, rfl⟩)
    · rw [hrecords']
      exact List.mem_append_left _ (hc.mem_right hrel)
    · simp [hrecords']
  · rintro a b c d (hrel | ⟨rfl, rfl⟩) (hrel' | ⟨rfl, rfl⟩)
    · exact hc.iso.order a b c d hrel hrel'
    · have := hlt a b hrel
      exact iff_of_true this.1 this.2
    · have := hlt c d hrel'
      exact iff_of_false (Nat.not_lt_of_gt this.1) (Nat.not_lt_of_gt this.2)
    · exact iff_of_false (Nat.lt_irrefl _) (Nat.lt_irrefl _)
  · rintro a b (hrel | ⟨rfl, rfl⟩)
    · have ha := hc.mem_left hrel
      have hb := hc.mem_right hrel
      have hbody := hl.sameBody hc.left.wf ha
      have hbody' := hr.sameBody hc.right.wf hb
      have hold := hc.iso.record a b hrel
      refine ⟨?_, ?_, fun i hlow hi hout => ?_, fun k hk => ?_⟩
      · exact hbody'.kind.trans (hold.kind.trans hbody.kind.symm)
      · exact (isPinned_eq_of_byte (hr.byte hc.right.wf hb)).trans
          (hold.pinned.trans (isPinned_eq_of_byte (hl.byte hc.left.wf ha)).symm)
      · change m'.byte (b + i) = m.byte (a + i)
        have hi' : i < v.left.memory.extent a := hbody.extent ▸ hi
        have hout' : ¬ v.left.memory.InReference a i := by
          unfold InReference
          rw [← hbody.referenceFields]
          exact hout
        rw [hbody'.body i hlow (by rw [hold.extent]; exact hi'), hbody.body i hlow hi',
          hold.payload i hlow hi' hout']
      · have hk' : k ∈ v.left.memory.referenceFields a := hbody.referenceFields ▸ hk
        change Linked _ (m.field a k) (m'.field b k)
        rw [hbody.reference hk', hbody'.reference (by rw [hold.referenceFields]; exact hk')]
        exact (hold.reference k hk').mono Or.inl
    · exact hmatch.mono fun _ _ => Or.inl
  · intro p hp hpin
    rw [hrecords] at hp
    rcases List.mem_append.mp hp with hp | hp
    · exact Or.inl (hc.iso.pinned_left p hp
        ((isPinned_eq_of_byte (hl.byte hc.left.wf hp)).symm.trans hpin))
    · obtain rfl := List.mem_singleton.mp hp
      exact Or.inr ⟨rfl, hc.top_eq_of_pinning (hl.written.pinned.symm.trans hpin)⟩
  · intro p hp hpin
    rw [hrecords'] at hp
    rcases List.mem_append.mp hp with hp | hp
    · exact Or.inl (hc.iso.pinned_right p hp
        ((isPinned_eq_of_byte (hr.byte hc.right.wf hp)).symm.trans hpin))
    · obtain rfl := List.mem_singleton.mp hp
      have hpinning : v.left.pinning = true :=
        hc.iso.pinning.trans (hr.written.pinned.symm.trans hpin)
      exact Or.inr ⟨(hc.top_eq_of_pinning hpinning).symm, rfl⟩

theorem guarded_push (hvis : ∀ k ∈ m.referenceFields v.left.top, v.Visible (m.field v.left.top k))
    (hs : v.guard = some s) : Guarded (v.push size m m').left s := by
  have hg := hc.guarded s hs
  have hF := hg.root_mem hc.left.wf
  have hO := hg.secluded.cell_mem hc.left hF
  have hbody := fun q hq => hl.sameBody hc.left.wf (r := q) hq
  have hrecords : (v.push size m m').left.records = v.left.records ++ [v.left.top] :=
    hl.records hc.left.wf
  have hcell : m.field (v.left.root s) 1 = v.left.memory.field (v.left.root s) 1 :=
    (hbody _ hF).reference (by rw [pair_references hg.secluded.pair]; decide)
  have hname : m.field (v.left.memory.field (v.left.root s) 1) 0 =
      v.left.memory.field (v.left.memory.field (v.left.root s) 1) 0 :=
    (hbody _ hO).reference (by rw [pair_references hg.secluded.cell]; decide)
  refine ⟨hg.lt, ⟨?_, ?_, ?_, ?_, ?_⟩, ?_⟩
  · exact (hbody _ hF).kind.trans hg.secluded.pair
  · change m.kind (m.field (v.left.root s) 1) = _
    rw [hcell, (hbody _ hO).kind, hg.secluded.cell]
  · change Heap.Bindable _ (m.field (m.field (v.left.root s) 1) 0)
    rw [hcell, hname]
    exact hg.secluded.name.matched (hl.matches_self hc.left.wf
      (hc.left.pair_field_mem hO hg.secluded.cell (by omega)))
  · rw [hrecords]
    intro q hq k hk
    change m.field q k ≠ v.left.root s
    rcases List.mem_append.mp hq with hq | hq
    · have hk' := (hbody q hq).referenceFields ▸ hk
      rw [(hbody q hq).reference hk']
      exact hg.secluded.unshared q hq k hk'
    · obtain rfl := List.mem_singleton.mp hq
      exact (hvis k hk s hs).1
  · rw [hrecords]
    intro q hq k hk
    change m.field q k = m.field (v.left.root s) 1 → q = v.left.root s
    rw [hcell]
    rcases List.mem_append.mp hq with hq | hq
    · have hk' := (hbody q hq).referenceFields ▸ hk
      rw [(hbody q hq).reference hk']
      exact hg.secluded.only q hq k hk'
    · obtain rfl := List.mem_singleton.mp hq
      exact fun h => absurd h (hvis k hk s hs).2
  · intro i hi hne
    change _ ∧ v.left.root i ≠ m.field (v.left.root s) 1
    rw [hcell]
    exact hg.roots i hi hne

theorem push (hr : v.right.Pushed v.rules kind words' bytes size m')
    (hmatch : Matches v.Rel m v.left.top m' v.right.top) : Corr (v.push size m m') where
  left := hl.sound hc.left
  right := hr.sound hc.right
  iso := hc.iso_push hl hr (hmatch.mono fun _ _ => And.left)
  guarded _ hs := hc.guarded_push hl (fun k hk => hc.visible_linked (hmatch.reference k hk)) hs

/-- The pairs under guard are the ones they were. -/
theorem visible_push :
    (v.push size m m').Visible a ↔ v.Visible a := by
  refine forall_congr' fun s => imp_congr_right fun hs => ?_
  have hg := hc.guarded s hs
  have hF := hg.root_mem hc.left.wf
  have hcell : m.field (v.left.root s) 1 = v.left.memory.field (v.left.root s) 1 :=
    (hl.sameBody hc.left.wf hF).reference (by rw [pair_references hg.secluded.pair]; decide)
  change _ ∧ a ≠ m.field (v.left.root s) 1 ↔ _
  rw [hcell]
  rfl

theorem rel_push (h : v.Rel a b) : (v.push size m m').Rel a b :=
  ⟨Or.inl h.1, (hc.visible_push hl).mpr h.2⟩

theorem rel_push_top :
    (v.push size m m').Rel v.left.top v.right.top := by
  refine ⟨Or.inr ⟨rfl, rfl⟩, (hc.visible_push hl).mpr fun s hs => ?_⟩
  have hg := hc.guarded s hs
  have hF := hg.root_mem hc.left.wf
  have hne : ∀ q ∈ v.left.records, v.left.top ≠ q := fun q hq =>
    Nat.ne_of_gt (hc.left.wf.lt_top hq)
  exact ⟨hne _ hF, hne _ (hg.secluded.cell_mem hc.left hF)⟩

end

theorem later_push (hc : Corr v) (hn : n ≤ v.left.roots.size)
    (hl : v.left.Pushed v.rules kind words bytes size m) (hw : Corr (v.push size m m'))
    (hsame : v.Single → m = m') (hkind : kind.hangs = false)
    (hmay : kind = .builtin → ∃ index, words[1]? = some index ∧ v.may (.procedure index)) :
    Later n v (v.push size m m') :=
  .of_change hc hn hw hn ⟨rfl, rfl, rfl⟩ (fun hs => hs.push size (hsame hs))
    (.record hl hkind hmay)

end Corr

end ArenaScheme
