import ArenaScheme.Heap.Frame
import ArenaScheme.Proofs.Symbols

/-! Frames of corresponding heaps. The trees of bindings are ordered by the digests of names and by
positions, which both correspond; a walk down a tree meets newer records and a walk out of a frame
meets older ones, so that no walk runs out of fuel. -/

namespace ArenaScheme

open Memory Heap

namespace HeapM

theorem setLooseField_eq {r k : Nat} (value : Nat) (h : fieldAddress r k < addressSpace) :
    setLooseField r k value = setField r k value := by
  unfold setLooseField setField Memory.setField
  rw [looseAddress_of_lt h]

/-- Hangs a new binding into the tree of its frame. -/
def hangBinding (frame symbol r : Ref) : HeapM Unit := do
  let h ← get
  let (node, side) := h.bindingLink symbol h.capacity (frame, 1)
  setLooseField node side r

theorem hangBinding_run (frame symbol r : Ref) (h : Heap) :
    hangBinding frame symbol r h =
      setLooseField (h.bindingLink symbol h.capacity (frame, 1)).1
        (h.bindingLink symbol h.capacity (frame, 1)).2 r h := rfl

end HeapM

namespace Corr

variable {v : View} {a b c d k : Nat}

section

variable (hv : Corr v) (h : v.Rel a b) (hk : k ∈ v.left.memory.referenceFields a)
include hv h hk

/-- The loose fields of related records are their reference fields. -/
theorem looseField_eq :
    v.left.looseField a k = v.left.memory.field a k ∧
      v.right.looseField b k = v.right.memory.field b k := by
  refine ⟨hv.left.looseField_eq (hv.mem_left h.1) (field_end_le_extent hk),
    hv.right.looseField_eq (hv.mem_right h.1) (field_end_le_extent ?_)⟩
  rwa [(hv.matched h).referenceFields]

theorem setLooseField_left (value : Nat) :
    HeapM.setLooseField a k value = HeapM.setField a k value :=
  HeapM.setLooseField_eq value (hv.left.fieldAddress_lt (hv.mem_left h.1) (field_end_le_extent hk))

theorem setLooseField_right (value : Nat) :
    HeapM.setLooseField b k value = HeapM.setField b k value :=
  HeapM.setLooseField_eq value (hv.right.fieldAddress_lt (hv.mem_right h.1) (by
    rw [(hv.matched h).extent]
    exact field_end_le_extent hk))

end

theorem nameDigest_eq (hv : Corr v) (h : v.Rel a b) (hk : v.left.memory.kind a = .symbol) :
    v.right.nameDigest b = v.left.nameDigest a := by
  rw [hv.left.nameDigest_eq (hv.mem_left h.1) hk,
    hv.right.nameDigest_eq (hv.mem_right h.1) ((hv.kind_eq h).trans hk), (hv.matched h).digest hk]

/-- A record that may be bound in any frame. -/
def Key (v : View) (a : Nat) : Prop := v.rules.table = none → v.left.memory.kind a = .symbol

theorem keyBefore_eq (hv : Corr v) (ho : v.Aligned) (h : v.Rel a b) (h' : v.Rel c d)
    (ha : Key v a) (hc : Key v c) : v.right.keyBefore b d = v.left.keyBefore a c := by
  rcases ho with htable | hs
  · unfold Heap.keyBefore
    rw [hv.nameDigest_eq h (ha htable), hv.nameDigest_eq h' (hc htable),
      decide_eq_decide.mpr (hv.lt_iff h h')]
  · rw [← hs.same, hs.eq _ _ h.1, hs.eq _ _ h'.1]

/-- The key of a binding. -/
theorem binding_key (hv : Corr v) (h : v.Rel a b) (hk : v.left.memory.kind a = .binding) :
    v.Rel (v.left.looseField a 0) (v.right.looseField b 0) ∧ Key v (v.left.looseField a 0) := by
  have hmem : 0 ∈ v.left.memory.referenceFields a := by rw [binding_references hk]; decide
  have hrel := hv.rel_field h hmem (by rw [hk]; rfl)
  obtain ⟨hl, hr⟩ := hv.looseField_eq h hmem
  rw [hl, hr]
  refine ⟨hrel, ?_⟩
  rcases hv.left.allowed a (hv.mem_left h.1) 0 hmem with ⟨habs, -⟩ | ⟨-, hfits⟩
  · exact absurd habs (hv.left.wf.ne_absent (hv.mem_left hrel.1))
  · rw [hk] at hfits
    exact hfits

theorem binding_value (hv : Corr v) (h : v.Rel a b) (hk : v.left.memory.kind a = .binding) :
    v.Rel (v.left.looseField a 1) (v.right.looseField b 1) := by
  have hmem : 1 ∈ v.left.memory.referenceFields a := by rw [binding_references hk]; decide
  obtain ⟨hl, hr⟩ := hv.looseField_eq h hmem
  rw [hl, hr]
  exact hv.rel_field h hmem (by rw [hk]; rfl)

/-- The places where bindings hang: below a frame and below a binding. -/
def HoldsBinding (kind : Kind) (k : Nat) : Prop :=
  (kind = .environment ∧ k = 1) ∨ (kind = .binding ∧ (k = 2 ∨ k = 3))

theorem HoldsBinding.two_le {kind : Kind} (h : HoldsBinding kind k) (hk : kind = .binding) :
    2 ≤ k := by
  rcases h with ⟨hframe, -⟩ | ⟨-, hside⟩
  · cases hk.symm.trans hframe
  · omega

theorem mem_of_holdsBinding {m : Memory} {r : Nat} (h : HoldsBinding (m.kind r) k) :
    k ∈ m.referenceFields r := by
  rcases h with ⟨hk, rfl⟩ | ⟨hk, rfl | rfl⟩
  · rw [environment_references hk]; decide
  · rw [binding_references hk]; decide
  · rw [binding_references hk]; decide

theorem binding_child (hv : Corr v) (h : v.Rel a b)
    (hk : HoldsBinding (v.left.memory.kind a) k) :
    Linked v.Rel (v.left.looseField a k) (v.right.looseField b k) ∧
      (v.left.looseField a k ≠ absent →
        v.left.memory.kind (v.left.looseField a k) = .binding) ∧
      a < v.left.looseField a k ∧ b < v.right.looseField b k := by
  have hmem := mem_of_holdsBinding hk
  obtain ⟨hl, hr⟩ := hv.looseField_eq h hmem
  rw [hl, hr]
  refine hv.newer_field h hmem fun t s hfits => ?_
  rcases hk with ⟨hk, rfl⟩ | ⟨hk, rfl | rfl⟩ <;> rw [hk] at hfits <;> exact hfits

theorem findBindingFrom_absent (h : Heap) (symbol : Ref) (fuel : Nat) :
    h.findBindingFrom symbol fuel absent = none := by
  cases fuel with
  | zero => rfl
  | succ fuel => rw [Heap.findBindingFrom, if_pos rfl]

theorem findBindingFrom (hv : Corr v) {frame fuel fuel' : Nat} (hsymbol : v.Rel c d)
    (hkeys : ∀ x y, v.Rel x y → v.left.memory.kind x = .binding → v.left.Hangs frame x →
      v.right.keyBefore d (v.right.looseField y 0) = v.left.keyBefore c (v.left.looseField x 0))
    (hnode : Linked v.Rel a b)
    (hk : a ≠ absent → v.left.memory.kind a = .binding ∧ v.left.Hangs frame a)
    (hfuel : v.left.top ≤ a + fuel) (hfuel' : v.right.top ≤ b + fuel') :
    Option.Rel (fun x y => v.Rel x y ∧ v.left.memory.kind x = .binding)
      (v.left.findBindingFrom c fuel a) (v.right.findBindingFrom d fuel' b) := by
  induction fuel generalizing a b fuel' with
  | zero =>
    rcases hnode with ⟨rfl, rfl⟩ | hrel
    · rw [findBindingFrom_absent, findBindingFrom_absent]
      exact .none
    · exact absurd (hv.left.wf.lt_top (hv.mem_left hrel.1)) (Nat.not_lt_of_le hfuel)
  | succ fuel ih =>
    rcases hnode with ⟨rfl, rfl⟩ | hrel
    · rw [findBindingFrom_absent, findBindingFrom_absent]
      exact .none
    · have hb := hv.right.wf.lt_top (hv.mem_right hrel.1)
      obtain ⟨fuel', rfl⟩ : ∃ f, fuel' = f + 1 := ⟨fuel' - 1, by omega⟩
      have hne := hv.left.wf.ne_absent (hv.mem_left hrel.1)
      obtain ⟨hk, hhangs⟩ := hk hne
      obtain ⟨hbound, -⟩ := hv.binding_key hrel hk
      have hstep : ∀ side, side = 2 ∨ side = 3 →
          Option.Rel (fun x y => v.Rel x y ∧ v.left.memory.kind x = .binding)
            (v.left.findBindingFrom c fuel (v.left.looseField a side))
            (v.right.findBindingFrom d fuel' (v.right.looseField b side)) := by
        intro side hside
        obtain ⟨hlink, hkind, hlt, hlt'⟩ := hv.binding_child hrel (Or.inr ⟨hk, hside⟩)
        refine ih hlink (fun hpresent => ⟨hkind hpresent, ?_⟩) (by omega) (by omega)
        rw [(hv.looseField_eq hrel (mem_of_holdsBinding (Or.inr ⟨hk, hside⟩))).1] at hpresent ⊢
        exact hhangs.child hside hpresent
      rw [Heap.findBindingFrom, Heap.findBindingFrom, if_neg hne,
        if_neg (hv.right.wf.ne_absent (hv.mem_right hrel.1))]
      simp only [hkeys a b hrel hk hhangs, ← hv.eq_iff hbound hsymbol]
      split
      · exact .some ⟨hrel, hk⟩
      · split
        · exact hstep 2 (Or.inl rfl)
        · exact hstep 3 (Or.inr rfl)

/-- A search in two frames that stand for each other, if it goes the same way in both. -/
theorem findBinding_of_keys (hv : Corr v) (hframe : v.Rel a b)
    (ha : v.left.memory.kind a = .environment) (hsymbol : v.Rel c d)
    (hkeys : ∀ x y, v.Rel x y → v.left.memory.kind x = .binding → v.left.Hangs a x →
      v.right.keyBefore d (v.right.looseField y 0) = v.left.keyBefore c (v.left.looseField x 0)) :
    Option.Rel (fun x y => v.Rel x y ∧ v.left.memory.kind x = .binding) (v.left.findBinding a c)
      (v.right.findBinding b d) := by
  have hholds : HoldsBinding (v.left.memory.kind a) 1 := Or.inl ⟨ha, rfl⟩
  obtain ⟨hlink, hkind, -⟩ := hv.binding_child hframe hholds
  refine hv.findBindingFrom hsymbol hkeys hlink (fun hpresent => ⟨hkind hpresent, ?_⟩)
    (Nat.le_trans hv.left.wf.top_le (Nat.le_add_left _ _))
    (Nat.le_trans hv.right.wf.top_le (Nat.le_add_left _ _))
  rw [(hv.looseField_eq hframe (mem_of_holdsBinding hholds)).1] at hpresent ⊢
  exact .root hpresent

theorem findBinding (hv : Corr v) (ho : v.Aligned) (hframe : v.Rel a b)
    (ha : v.left.memory.kind a = .environment) (hsymbol : v.Rel c d) (hc : Key v c) :
    Option.Rel (fun x y => v.Rel x y ∧ v.left.memory.kind x = .binding) (v.left.findBinding a c)
      (v.right.findBinding b d) :=
  hv.findBinding_of_keys hframe ha hsymbol fun _ _ hrel hk _ =>
    hv.keyBefore_eq ho hsymbol (hv.binding_key hrel hk).1 hc (hv.binding_key hrel hk).2

/-- The outer frame is older, or there is none. -/
theorem outer_frame (hv : Corr v) (h : v.Rel a b) (hk : v.left.memory.kind a = .environment) :
    (v.left.looseField a 0 = absent ∧ v.right.looseField b 0 = absent) ∨
      (v.Rel (v.left.looseField a 0) (v.right.looseField b 0) ∧
        v.left.memory.kind (v.left.looseField a 0) = .environment ∧
        v.left.looseField a 0 < a ∧ v.right.looseField b 0 < b) := by
  have hmem : 0 ∈ v.left.memory.referenceFields a := by rw [environment_references hk]; decide
  obtain ⟨hl, hr⟩ := hv.looseField_eq h hmem
  rw [hl, hr]
  refine ((hv.matched h).reference 0 hmem).imp_right fun hrel => ⟨hrel, ?_⟩
  rcases hv.left.allowed a (hv.mem_left h.1) 0 hmem with ⟨habs, -⟩ | ⟨-, hfits⟩
  · exact absurd habs (hv.left.wf.ne_absent (hv.mem_left hrel.1))
  · rw [hk] at hfits
    exact ⟨hfits.1, hfits.2, (hv.lt_iff hrel h).mp hfits.2⟩

theorem findVisibleFrom (hv : Corr v) (ho : v.Aligned) {fuel fuel' : Nat} (hframe : v.Rel a b)
    (ha : v.left.memory.kind a = .environment) (hsymbol : v.Rel c d) (hc : Key v c)
    (hfuel : a < fuel) (hfuel' : b < fuel') :
    Option.Rel (fun x y => v.Rel x y ∧ v.left.memory.kind x = .binding)
      (v.left.findVisibleFrom c fuel a) (v.right.findVisibleFrom d fuel' b) := by
  induction fuel generalizing a b fuel' with
  | zero => omega
  | succ fuel ih =>
    obtain ⟨fuel', rfl⟩ : ∃ f, fuel' = f + 1 := ⟨fuel' - 1, by omega⟩
    rw [Heap.findVisibleFrom, Heap.findVisibleFrom,
      if_neg (hv.left.wf.ne_absent (hv.mem_left hframe.1)),
      if_neg (hv.right.wf.ne_absent (hv.mem_right hframe.1))]
    have hfound := hv.findBinding ho hframe ha hsymbol hc
    generalize v.left.findBinding a c = p at hfound ⊢
    generalize v.right.findBinding b d = q at hfound ⊢
    cases hfound with
    | some h => exact .some h
    | none =>
      simp only
      rcases hv.outer_frame hframe ha with ⟨habs, habs'⟩ | ⟨hrel, hkind, hlt, hlt'⟩
      · have hnone : ∀ (h : Heap) x f, h.findVisibleFrom x f absent = none := fun h x f => by
          cases f with
          | zero => rfl
          | succ f => rw [Heap.findVisibleFrom, if_pos rfl]
        rw [habs, habs', hnone, hnone]
        exact .none
      · exact ih hrel hkind (by omega) (by omega)

theorem findVisible (hv : Corr v) (ho : v.Aligned) (hframe : v.Rel a b) (hsymbol : v.Rel c d) :
    Answers (fun x y => v.Rel x y ∧ v.left.memory.kind x = .binding) (v.left.findVisible a c)
      (v.right.findVisible b d) := by
  refine (hv.expectKind hframe .environment "environment").bind fun _ _ ha => ?_
  refine (hv.expectSymbol hsymbol).bind fun _ _ hc => ?_
  have hfound : Option.Rel (fun x y => v.Rel x y ∧ v.left.memory.kind x = .binding)
      (v.left.findVisibleFrom c v.left.capacity a)
      (v.right.findVisibleFrom d v.right.capacity b) :=
    hv.findVisibleFrom ho hframe ha hsymbol (fun _ => hc)
      (Nat.lt_of_lt_of_le (hv.left.wf.lt_top (hv.mem_left hframe.1)) hv.left.wf.top_le)
      (Nat.lt_of_lt_of_le (hv.right.wf.lt_top (hv.mem_right hframe.1)) hv.right.wf.top_le)
  generalize v.left.findVisibleFrom c v.left.capacity a = p at hfound ⊢
  generalize v.right.findVisibleFrom d v.right.capacity b = q at hfound ⊢
  cases hfound with
  | some h => exact .ok h
  | none =>
    refine (hv.symbolName hsymbol).bind fun x y ⟨hxy, _⟩ => ?_
    rw [hxy]
    exact .error _ rfl

theorem lookup (hv : Corr v) (ho : v.Aligned) (hframe : v.Rel a b) (hsymbol : v.Rel c d) :
    Answers v.Rel (v.left.lookup a c) (v.right.lookup b d) :=
  (hv.findVisible ho hframe hsymbol).bind fun _ _ h => .ok (hv.binding_value h.1 h.2)

/-- Links out of corresponding records that are older than the record at `r`. -/
def BindingLinks (v : View) (r : Nat) (p q : Ref × Nat) : Prop :=
  v.Rel p.1 q.1 ∧ HoldsBinding (v.left.memory.kind p.1) p.2 ∧ p.1 < r ∧ p.2 = q.2

theorem bindingLink (hv : Corr v) (ho : v.Aligned) {r fuel fuel' : Nat} {link link' : Ref × Nat}
    (hr : v.left.Fresh r) (hsymbol : v.Rel c d) (hc : Key v c) (hlink : BindingLinks v r link link')
    (hfuel : v.left.top ≤ link.1 + fuel) (hfuel' : v.right.top ≤ link'.1 + fuel') :
    BindingLinks v r (v.left.bindingLink c fuel link) (v.right.bindingLink d fuel' link') := by
  induction fuel generalizing link link' fuel' with
  | zero =>
    exact absurd (hv.left.wf.lt_top (hv.mem_left hlink.1.1)) (Nat.not_lt_of_le hfuel)
  | succ fuel ih =>
    obtain ⟨node, side⟩ := link
    obtain ⟨node', side'⟩ := link'
    obtain ⟨hrel, hholds, hlt, rfl⟩ := hlink
    have hb := hv.right.wf.lt_top (hv.mem_right hrel.1)
    simp only at hfuel hfuel' hb hholds hlt hrel
    obtain ⟨fuel', rfl⟩ : ∃ f, fuel' = f + 1 := ⟨fuel' - 1, by omega⟩
    have hmem := hv.mem_left hrel.1
    obtain ⟨hchild, hkind, hnewer, hnewer'⟩ := hv.binding_child hrel hholds
    rw [Heap.bindingLink, Heap.bindingLink]
    simp only
    rcases hchild with ⟨habs, habs'⟩ | hchild
    · rw [if_pos habs, if_pos habs']
      exact ⟨hrel, hholds, hlt, rfl⟩
    · have hne := hv.left.wf.ne_absent (hv.mem_left hchild.1)
      rw [if_neg hne, if_neg (hv.right.wf.ne_absent (hv.mem_right hchild.1))]
      obtain ⟨hbound, hboundKind⟩ := hv.binding_key hchild (hkind hne)
      rw [hv.keyBefore_eq ho hsymbol hbound hc hboundKind]
      refine ih ⟨hchild, Or.inr ⟨hkind hne, ?_⟩, ?_, rfl⟩ (by simp only; omega) (by simp only; omega)
      · simp only
        split
        · exact Or.inl rfl
        · exact Or.inr rfl
      · refine Nat.lt_of_le_of_ne (hr.newest _ (hv.mem_left hchild.1)) ?_
        simp only [(hv.looseField_eq hrel (mem_of_holdsBinding hholds)).1]
        exact hr.unshared node hmem side (mem_of_holdsBinding hholds)

/-- A new binding is newer than the record it is hung under. -/
theorem hangBinding (hv : Corr v) (ho : v.Aligned) {r s : Nat} (hframe : v.Rel a b)
    (ha : v.left.memory.kind a = .environment) (hsymbol : v.Rel c d) (hc : Key v c)
    (h : v.Rel r s) (hk : v.left.memory.kind r = .binding) (hfresh : v.left.Fresh r) (hlt : a < r) :
    ∃ w, HeapM.hangBinding a c r v.left = .ok () w.left ∧
      HeapM.hangBinding b d s v.right = .ok () w.right ∧ Corr w ∧ SameTerms v w ∧ Updated v w ∧
      v.left.BindingHung a c r w.left ∧ w.rel = v.rel := by
  have hlink : BindingLinks v r (v.left.bindingLink c v.left.capacity (a, 1))
      (v.right.bindingLink d v.right.capacity (b, 1)) :=
    hv.bindingLink ho hfresh hsymbol hc ⟨hframe, Or.inl ⟨ha, rfl⟩, hlt, rfl⟩
      (Nat.le_trans hv.left.wf.top_le (Nat.le_add_left _ _))
      (Nat.le_trans hv.right.wf.top_le (Nat.le_add_left _ _))
  rw [HeapM.hangBinding_run, HeapM.hangBinding_run]
  generalize hp : v.left.bindingLink c v.left.capacity (a, 1) = p at hlink ⊢
  generalize v.right.bindingLink d v.right.capacity (b, 1) = q at hlink ⊢
  obtain ⟨node, side⟩ := p
  obtain ⟨node', side'⟩ := q
  obtain ⟨hrel, hholds, hlt, rfl⟩ := hlink
  have hmem := mem_of_holdsBinding hholds
  rw [hv.setLooseField_left hrel hmem, hv.setLooseField_right hrel hmem]
  obtain ⟨hm, hm'⟩ := hv.fieldSet hrel (Or.inl hmem) (fun _ => Or.inr h)
    fun hout => absurd hmem hout
  refine ⟨v.withMemory (v.left.memory.setField node side r) (v.right.memory.setField node' side s),
    rfl, rfl, ?_⟩
  generalize v.left.memory.setField node side r = m at hm ⊢
  generalize v.right.memory.setField node' side s = m' at hm' ⊢
  refine ⟨hv.setField hrel hm hm' (fun _ => hmem) (fun _ => ⟨Or.inr h, Or.inr ⟨hv.mem_left h.1, ?_⟩⟩)
    fun hout => absurd hmem hout, ⟨rfl, rfl, rfl⟩, hv.updated_setField hrel.2 hm, .below hp hm,
      rfl⟩
  rw [hk]
  rcases hholds with ⟨hk, rfl⟩ | ⟨hk, rfl | rfl⟩ <;> rw [hk] <;> exact ⟨rfl, hlt⟩

end Corr

namespace Heap

variable {rules : Rules} {h g : Heap} {kept : Nat → Prop} {place : Nat → Nat} {b frame r symbol : Nat}

/-- Nothing, or a record of the given kind. -/
def LeadsTo (h : Heap) (kind : Kind) (r : Nat) : Prop :=
  r = absent ∨ r ∈ h.records ∧ h.memory.kind r = kind

/-- Bindings hang where bindings belong. -/
theorem Sound.leadsTo_binding (hs : h.Sound rules) {k : Nat} (hr : r ∈ h.records)
    (hholds : Corr.HoldsBinding (h.memory.kind r) k) : h.LeadsTo .binding (h.memory.field r k) := by
  refine (hs.allowed r hr k (Corr.mem_of_holdsBinding hholds)).imp And.left fun ⟨hmem, hfits⟩ => ?_
  rcases hholds with ⟨hk, rfl⟩ | ⟨hk, rfl | rfl⟩ <;>
    · rw [hk] at hfits
      exact ⟨hmem, hfits.1⟩

theorem Hangs.binding (hb : h.Hangs frame b) (hs : h.Sound rules) (hframe : frame ∈ h.records)
    (hk : h.memory.kind frame = .environment) : b ∈ h.records ∧ h.memory.kind b = .binding := by
  induction hb with
  | root hne => exact (hs.leadsTo_binding hframe (Or.inl ⟨hk, rfl⟩)).resolve_left hne
  | child _ hside hne ih => exact (hs.leadsTo_binding ih.1 (Or.inr ⟨ih.2, hside⟩)).resolve_left hne

/-- A frame takes its bindings along. -/
theorem Relocation.hangs (hr : h.Relocation kept place g) (hs : h.Sound rules) (hframe : kept frame)
    (hk : h.memory.kind frame = .environment) (hb : h.Hangs frame b) :
    kept b ∧ g.Hangs (place frame) (place b) := by
  have hfield : ∀ r k, kept r → k ∈ h.memory.referenceFields r → h.memory.field r k ≠ absent →
      kept (h.memory.field r k) ∧ place (h.memory.field r k) = g.memory.field (place r) k ∧
        g.memory.field (place r) k ≠ absent := fun r k hkept hmem hne => by
    obtain ⟨hkept', heq⟩ := ((hr.record r hkept).reference k hmem).resolve_left fun habs => hne habs.1
    exact ⟨hkept', heq, heq ▸ hr.wellFormed.ne_absent (hr.mem_records hkept')⟩
  induction hb with
  | root hne =>
    obtain ⟨hkept, heq, hne⟩ := hfield frame 1 hframe (by rw [environment_references hk]; decide) hne
    exact ⟨hkept, heq ▸ .root hne⟩
  | child hup hside hne ih =>
    have hmem := Corr.mem_of_holdsBinding (Or.inr
      ⟨(hup.binding hs (hr.mem frame hframe) hk).2, hside⟩)
    obtain ⟨hkept, heq, hne⟩ := hfield _ _ ih.1 hmem hne
    exact ⟨hkept, heq ▸ ih.2.child hside hne⟩

/-- A symbol that has no binding in a frame of symbols has none after records moved. -/
theorem Relocation.findBinding_eq_none (hr : h.Relocation kept place g) (hs : h.Sound rules)
    (hframe : kept frame) (hk : h.memory.kind frame = .environment) (hsymbol : kept symbol)
    (hnone : h.findBinding frame symbol = none)
    (hk' : g.memory.kind (place symbol) = .symbol) (hkeys : g.BindsSymbols (place frame)) :
    g.findBinding (place frame) (place symbol) = none := by
  have hv := (Corr.diagonal hs fun _ => True).moveRight hr
  have hrel : ∀ r, kept r →
      ((View.diagonal rules (fun _ => True) h).moveRight kept place g).Rel r (place r) :=
    fun r hkept => Corr.rel_moveRight (View.diagonal_rel (hr.mem r hkept)) hkept
  have hfind := hv.findBinding_of_keys (hrel _ hframe) hk (hrel _ hsymbol) fun x y hxy hbinding hx => by
    obtain ⟨hkept, hhangs⟩ := hr.hangs hs hframe hk hx
    obtain ⟨hbound, -⟩ := hv.binding_key hxy hbinding
    obtain rfl : place x = y := (hv.eq_iff (hrel x hkept) hxy).mp rfl
    have hloose := (hv.looseField_eq hxy (k := 0) (by rw [binding_references hbinding]; decide)).2
    have hkey : g.memory.kind (g.looseField (place x) 0) = .symbol :=
      (congrArg g.memory.kind hloose).trans (hkeys _ hhangs)
    unfold Heap.keyBefore
    rw [hv.nameDigest_eq (hrel _ hsymbol) ((hv.kind_eq (hrel _ hsymbol)).symm.trans hk'),
      hv.nameDigest_eq hbound ((hv.kind_eq hbound).symm.trans hkey),
      decide_eq_decide.mpr (hv.lt_iff (hrel _ hsymbol) hbound)]
  change Option.Rel _ (h.findBinding frame symbol) (g.findBinding _ _) at hfind
  rw [hnone] at hfind
  generalize g.findBinding _ _ = q at hfind ⊢
  cases hfind
  rfl

end Heap

namespace Agrees

variable {v : View} {n k a b c d x y t u : Nat}

theorem setBinding (hv : Corr v) (hn : n ≤ v.left.roots.size) (hmay : v.may .bind)
    (hxy : v.Rel x y) (hk : v.left.memory.kind x = .binding) (htu : v.Rel t u) :
    Agrees n v (fun w _ _ => Updated v w) (HeapM.setLooseField x 1 t)
      (HeapM.setLooseField y 1 u) := by
  have hmem : 1 ∈ v.left.memory.referenceFields x := by rw [binding_references hk]; decide
  rw [hv.setLooseField_left hxy hmem, hv.setLooseField_right hxy hmem]
  exact setReference hv hn hxy (by rw [Heap.fieldEffect, hk]; rfl) hmay hmem htu
    (by rw [hk]; trivial)

theorem assign (hv : Corr v) (ho : v.Aligned) (hn : n ≤ v.left.roots.size)
    (hmay : v.may .bind) (hframe : v.Rel a b) (hsymbol : v.Rel c d) (htu : v.Rel t u) :
    Agrees n v (fun w _ _ => Updated v w) (HeapM.assign a c t) (HeapM.assign b d u) :=
  query_bind hv hn (hv.findVisible ho hframe hsymbol) fun _ _ h => setBinding hv hn hmay h.1 h.2 htu

section

variable (hv : Corr v) (ho : v.Ordered) (hn : n ≤ v.left.roots.size)
include hv ho hn

/-- Once there is room, a symbol gets its binding. -/
theorem addBinding (hmay : v.may .bind) (hframe : v.Rel a b)
    (ha : v.left.memory.kind a = .environment) (hsymbol : v.Rel c d)
    (hc : v.rules.table ≠ some a → v.left.Bindable c) (htu : v.Rel t u)
    (hmissing : v.left.memory.kind c = .symbol → v.left.BindsSymbols a → v.left.findBinding a c = none)
    (hfit : v.left.top + fieldsSize 4 ≤ v.left.capacity)
    (hfit' : v.right.top + fieldsSize 4 ≤ v.right.capacity) :
    Agrees n v (fun w _ _ => w.left.roots.size = v.left.roots.size)
      (do
        let r ← HeapM.put .binding (fieldsSize 4) [c, t, absent, absent] []
        HeapM.hangBinding a c r)
      (do
        let r ← HeapM.put .binding (fieldsSize 4) [d, u, absent, absent] []
        HeapM.hangBinding b d r) := by
  have hkey : Corr.Key v c := fun htable => (hc (by rw [htable]; exact fun heq => nomatch heq)).kind
  have hshape : ∀ p q, Shape .binding [p, q, absent, absent] [] (fieldsSize 4) (List.range 4) :=
    fun p q => .of_front rfl rfl (Nat.le_refl _)
  have hholds : ∀ k ∈ List.range 4, ∀ x y, [c, t, absent, absent][k]? = some x →
      [d, u, absent, absent][k]? = some y → v.Holds .binding k x y := by
    intro k hk p q hp hq
    match k, hk with
    | 0, _ =>
      cases hp
      cases hq
      exact Or.inr ⟨hsymbol, hkey⟩
    | 1, _ =>
      cases hp
      cases hq
      exact Or.inr ⟨htu, trivial⟩
    | 2, _ | 3, _ =>
      cases hp
      cases hq
      exact Or.inl ⟨rfl, rfl, rfl⟩
    | k + 4, hk => exact absurd (List.mem_range.mp hk) (by omega)
  have hplain : ∀ k, k ∉ List.range 4 → [d, u, absent, absent][k]? = [c, t, absent, absent][k]? := by
    intro k hk
    match k with
    | 0 | 1 => exact absurd (by decide) hk
    | k + 2 => rfl
  obtain ⟨hl, hr, hmatch⟩ := hv.pushed (hshape c t) (hshape d u) hfit hfit' hholds hplain
  have hpushed : v.Single → (v.push (fieldsSize 4)
      (v.left.written .binding [c, t, absent, absent] [])
      (v.right.written .binding [d, u, absent, absent] [])).Single := fun hs =>
    hs.push _ (by rw [hs.same, hs.eq _ _ hsymbol.1, hs.eq _ _ htu.1])
  unfold Agrees
  rw [HeapM.put_bind, HeapM.put_bind]
  generalize v.left.written _ _ _ = m at hl hmatch hpushed ⊢
  generalize v.right.written _ _ _ = m' at hr hmatch hpushed ⊢
  have hz := hv.push hl hr hmatch
  have hbuilt := hv.built m' hl
  obtain ⟨hframe', hframeKind, hframeLt⟩ := hbuilt.old _ _ hframe
  obtain ⟨hsymbol', hsymbolKind, -⟩ := hbuilt.old _ _ hsymbol
  obtain ⟨w, hrun, hrun', hw, hterms, hupdated, hhung, hrel⟩ :=
    hz.hangBinding (ho.aligned.imp id hpushed) hframe' (hframeKind.trans ha) hsymbol'
      (fun htable => hsymbolKind.trans (hkey htable)) hbuilt.rel hbuilt.kind_eq hbuilt.fresh hframeLt
  change Outcome n v _ (HeapM.hangBinding a c v.left.top (v.push (fieldsSize 4) m m').left)
    (HeapM.hangBinding b d v.right.top (v.push (fieldsSize 4) m m').right)
  rw [hrun, hrun']
  refine .ok w hw (.of_change hv hn hw ?_ ⟨hterms.rules, hterms.guard, hterms.may⟩ (fun hs =>
    (hpushed hs).of_runs hrel hrun hrun' (by
      rw [hs.same, hs.eq _ _ hframe.1, hs.eq _ _ hsymbol.1])) (.binding
    ⟨hv.mem_left hframe.1, ha, hv.mem_left hsymbol.1, hc, hv.mem_left htu.1, hmissing, m, hl, hhung⟩
    hmay)) ?_
  · rw [hupdated.roots]
    exact hn
  · rw [hupdated.roots, hbuilt.roots]

theorem putBinding (hmay : v.may .bind) (hframe : v.Rel a b)
    (ha : v.left.memory.kind a = .environment) (hsymbol : v.Rel c d)
    (hc : v.rules.table ≠ some a → v.left.Bindable c) (htu : v.Rel t u) :
    Agrees n v (fun w _ _ => w.left.roots.size = v.left.roots.size) (HeapM.putBinding a c t)
      (HeapM.putBinding b d u) := by
  refine get_bind ?_
  have hkey : Corr.Key v c := fun hrules => (hc (by rw [hrules]; exact fun heq => nomatch heq)).kind
  have hfound := hv.findBinding ho.aligned hframe ha hsymbol hkey
  generalize hp : v.left.findBinding a c = p at hfound ⊢
  generalize v.right.findBinding b d = q at hfound ⊢
  cases hfound with
  | some h =>
    exact (setBinding hv hn hmay h.1 h.2 htu).mono (Nat.le_refl _) fun _ _ _ _ _ hupdated =>
      congrArg Array.size hupdated.roots
  | none =>
    simp only
    rw [HeapM.allocate_bind (fun kept => [kept[1], kept[2], absent, absent]) [],
      HeapM.allocate_bind (fun kept => [kept[1], kept[2], absent, absent]) []]
    rotate_left
    · exact fun _ _ => rfl
    · exact fun _ _ => rfl
    have hkept : ∀ i (hi : i < 3), v.Rel #v[a, c, t][i] #v[b, d, u][i] := by
      rintro (_ | _ | _ | i) hi
      · exact hframe
      · exact hsymbol
      · exact htu
      · omega
    refine (room hv hn hkept).bind fun w xs ys hw hlater hroom => ?_
    obtain ⟨kept, place, hmoved, hall, hxs⟩ := hroom.moved
    have hwhere : xs[0] = place a ∧ xs[1] = place c := by
      rw [hxs, Vector.getElem_map, Vector.getElem_map]
      exact ⟨rfl, rfl⟩
    have hmissing : w.left.memory.kind xs[1] = .symbol → w.left.BindsSymbols xs[0] →
        w.left.findBinding xs[0] xs[1] = none := by
      rw [hwhere.1, hwhere.2]
      exact hmoved.findBinding_eq_none hv.left (hall a (by simp)) ha (hall c (by simp)) hp
    have hc' : w.rules.table ≠ some xs[0] → w.left.Bindable xs[1] := fun hne => by
      rw [hwhere.1, hlater.rules] at hne
      rw [hwhere.2]
      exact (hc fun heq => hne (by
        rw [hv.left.place_pinned hmoved (hv.mem_left hframe.1) (ho.pinned a heq).2, heq])).matched
          (hmoved.record c (hall c (by simp)))
    refine (addBinding hw (hlater.ordered ho) hlater.size (hlater.may ▸ hmay)
      (hroom.rel 0 (by decide)) ((hroom.kind 0 (by decide)).trans ha) (hroom.rel 1 (by decide)) hc'
      (hroom.rel 2 (by decide)) hmissing hroom.left hroom.right).mono (Nat.le_refl _)
      fun u _ _ _ _ hsize => ?_
    exact hsize.trans hroom.roots

theorem define (hmay : v.may .bind) (hframe : v.Rel a b) (hsymbol : v.Rel c d) (htu : v.Rel t u) :
    Agrees n v (fun w _ _ => w.left.roots.size = v.left.roots.size) (HeapM.define a c t)
      (HeapM.define b d u) := by
  refine query_bind hv hn (hv.symbolName hsymbol) fun name name' ⟨hname, hc, hbytes⟩ => ?_
  subst hname
  by_cases hreserved : isReserved name = true
  · simp only [if_pos hreserved]
    exact (throw hv hn rfl).bind fun _ _ _ _ _ (hfalse : False) => hfalse.elim
  · simp only [if_neg hreserved]
    have hbindable : v.left.Bindable c :=
      ⟨hc, by rw [← hbytes]; exact Bool.not_eq_true _ ▸ hreserved⟩
    exact query_bind hv hn (hv.expectKind hframe .environment "environment") fun _ _ ha =>
      putBinding hv ho hn hmay hframe ha hsymbol (fun _ => hbindable) htu

/-- The slot that the parameters are taken from changes; the slot of the frame does not. -/
theorem bindFormals {args fixed cursor surplus frame count i : Nat} (hmay : v.may .bind)
    (hcursor : n ≤ cursor) (hne : cursor ≠ frame)
    (hslots : args ≤ cursor ∧ args ≤ surplus ∧ args ≤ frame) (hframe : frame < v.left.roots.size)
    (hg : ∀ s, v.guard = some s → s < args) :
    Agrees n v
      (fun w _ _ => w.left.roots.size = v.left.roots.size ∧ w.slotKind frame = v.slotKind frame)
      (HeapM.bindFormals args fixed cursor surplus frame count i)
      (HeapM.bindFormals args fixed cursor surplus frame count i) := by
  have hslot : ∀ (w : View) (s : Nat), w.guard = v.guard → args ≤ s → w.guard ≠ some s :=
    fun w s hw hle hs => absurd (hg s (hw.symm.trans hs)) (Nat.not_lt_of_le hle)
  induction count generalizing v i with
  | zero => exact pure hv hn ⟨rfl, rfl⟩
  | succ count ih =>
    refine root_bind hv (hslot v _ rfl hslots.1) fun hlist => ?_
    refine query_bind hv hn (hv.car hlist) fun name name' hname => ?_
    have hsource : args ≤ if i < fixed then args + i else surplus := by
      split
      · exact Nat.le_add_right _ _
      · exact hslots.2.1
    refine root_bind hv (hslot v _ rfl hsource) fun hvalue => ?_
    refine root_bind hv (hslot v _ rfl hslots.2.2) fun hframe' => ?_
    refine ((define hv ho (Nat.le_refl _) hmay hframe' hname hvalue).mono hn
      fun w _ _ _ hlater hsize => And.intro hlater hsize).bind fun w _ _ hw hlater ⟨hall, hsize⟩ => ?_
    have hwn := hlater.size
    refine root_bind hw (hslot w _ hlater.guard hslots.1) fun hlist' => ?_
    refine query_bind hw hwn (hw.cdr hlist') fun rest rest' hrest => ?_
    refine setRoot_bind hw hwn hcursor (hslot w _ hlater.guard hslots.1) hrest fun z hz => ?_
    have hguard := hz.guard.trans hlater.guard
    have hzsize := hz.size.trans hsize
    refine (ih hz.corr (hz.ordered (hlater.ordered ho)) (by omega)
      ((hz.may.trans hlater.may) ▸ hmay) (by omega) (fun s hs => hg s (hguard.symm.trans hs))
      (fun u s hu => hslot u s (hu.trans hguard))).mono (Nat.le_refl _)
      fun u _ _ _ _ hpost => ⟨hpost.1.trans hzsize, hpost.2.trans ?_⟩
    exact (hz.slot frame hne.symm).trans (hall.slot hframe)

end

theorem fixedParameters (arity : Nat) (rest : Bool) (received : Nat) :
    Answers Eq (HeapM.fixedParameters arity rest received)
      (HeapM.fixedParameters arity rest received) := by
  unfold HeapM.fixedParameters
  repeat' split
  all_goals first | exact .ok rfl | exact .error _ rfl

/-- The second half of `extend`: the parent stands in slot `parent`, the parameters in the next
slot, and `a` is the list of surplus arguments. -/
theorem extendFrame {args parent : Nat} (fixed arity : Nat) (hv : Corr v)
    (ho : v.Ordered) (hn : n ≤ parent) (hmay : v.may .bind)
    (hargs : args ≤ parent) (hsize : v.left.roots.size = parent + 2)
    (hkind : v.slotKind parent = .environment) (hg : ∀ s, v.guard = some s → s < args)
    (hab : v.Rel a b) :
    Agrees n v
      (fun w r s => w.Rel r s ∧ w.left.memory.kind r = .environment ∧
        w.left.roots.size = parent)
      (do
        let surplus ← HeapM.pushRoot a
        let frame ← HeapM.pushRoot (← HeapM.environment (some (← HeapM.root parent)))
        HeapM.bindFormals args fixed (parent + 1) surplus frame arity 0
        let result ← HeapM.root frame
        HeapM.releaseRoots parent
        return result)
      (do
        let surplus ← HeapM.pushRoot b
        let frame ← HeapM.pushRoot (← HeapM.environment (some (← HeapM.root parent)))
        HeapM.bindFormals args fixed (parent + 1) surplus frame arity 0
        let result ← HeapM.root frame
        HeapM.releaseRoots parent
        return result) := by
  have hslot : ∀ (w : View) (s : Nat), w.guard = v.guard → args ≤ s → w.guard ≠ some s :=
    fun w s hw hle hs => absurd (hg s (hw.symm.trans hs)) (Nat.not_lt_of_le hle)
  refine pushRoot_bind hv (by omega) hab fun w hw => ?_
  have hwsize := hw.size
  refine root_bind hw.corr (hslot w _ hw.guard hargs) fun hparent => ?_
  have hkind' : w.slotKind parent = .environment := (hw.slot _ (by omega)).trans hkind
  refine (environment hw.corr (by omega) (.some hparent) ?_).bind fun z r s hz hlater hmade => ?_
  · rintro x ⟨⟩
    exact hkind'
  have hzsize := hmade.roots
  refine pushRoot_bind hz hlater.size hmade.rel fun z1 hz1 => ?_
  have hguard : z1.guard = v.guard := hz1.guard.trans (hlater.guard.trans hw.guard)
  have hz1size := hz1.size
  have hmay' : z1.may .bind := by
    rw [hz1.may, hlater.may, hw.may]
    exact hmay
  have ho' : z1.Ordered := hz1.ordered (hlater.ordered (hw.ordered ho))
  refine (bindFormals hz1.corr ho' (by omega) hmay' (by omega) (by omega) ⟨by omega, by omega, by omega⟩
    (by omega) fun s hs => hg s (hguard.symm.trans hs)).bind fun u _ _ hu hlater' ⟨husize, hframe⟩ => ?_
  have hguard' := hlater'.guard.trans hguard
  refine root_bind hu (hslot u _ hguard' (by omega)) fun hresult => ?_
  refine releaseRoots_bind hu hlater'.size hn
    (fun s hs => Nat.lt_of_lt_of_le (hg s (hguard'.symm.trans hs)) hargs) fun u' hu' => ?_
  have husize' := hu'.size
  refine pure hu'.corr (by omega) ⟨hu'.rel _ _ hresult, ?_, by omega⟩
  calc u'.left.memory.kind (u.left.root z.left.roots.size) = u.slotKind z.left.roots.size :=
        hu'.kind _
    _ = z1.slotKind z.left.roots.size := hframe
    _ = z.left.memory.kind r := hz1.self
    _ = .environment := hmade.kind_eq

theorem extend {args : Nat} (hv : Corr v) (ho : v.Ordered)
    (hn : n ≤ v.left.roots.size) (hmay : v.may .bind) (hparent : v.Rel a b)
    (ha : v.left.memory.kind a = .environment) (hformals : v.Rel c d) (arity : Nat) (rest : Bool)
    (hargs : args ≤ v.left.roots.size) (hg : ∀ s, v.guard = some s → s < args) :
    Agrees n v (Made v .environment) (HeapM.extend a c arity rest args)
      (HeapM.extend b d arity rest args) := by
  refine rootCount_bind hv hn ?_
  refine query_bind hv hn (fixedParameters arity rest _) fun fixed fixed' hfixed => ?_
  subst hfixed
  refine pushRoot_bind hv hn hparent fun v1 h1 => ?_
  refine pushRoot_bind h1.corr (by have := h1.size; omega) (h1.rel _ _ hformals) fun v2 h2 => ?_
  have hsize : v2.left.roots.size = v.left.roots.size + 2 := by rw [h2.size, h1.size]
  have hkind : v2.slotKind v.left.roots.size = .environment := by
    rw [h2.slot _ (by have := h1.size; omega), h1.self, ha]
  have hg2 : ∀ s, v2.guard = some s → s < args := fun s hs =>
    hg s ((h2.guard.trans h1.guard).symm.trans hs)
  rw [h1.size]
  have hrest : ∀ w x y, Corr w → Later v2.left.roots.size v2 w → w.Rel x y →
      w.left.roots.size = v2.left.roots.size → _ := fun w x y hw hlater hxy hwsize =>
    (extendFrame fixed arity hw (hlater.ordered (h2.ordered (h1.ordered ho))) hn
      (by rw [hlater.may, h2.may, h1.may]; exact hmay) hargs (hwsize.trans hsize)
      ((hlater.slot (by omega)).trans hkind) (fun s hs => hg2 s (hlater.guard.symm.trans hs))
      hxy).mono (Nat.le_refl _)
      fun u r s _ _ hpost => (⟨hpost.1, hpost.2.1, hpost.2.2⟩ : Made v .environment u r s)
  cases rest with
  | false => exact hrest v2 null null h2.corr (.refl h2.corr (Nat.le_refl _)) h2.corr.rel_null rfl
  | true =>
    refine ((listOnto h2.corr (Nat.le_refl _) (fun s hs => ?_) h2.corr.rel_null).mono (by omega)
      fun w r s _ hlater hpost => And.intro hlater hpost).bind
      fun w x y hw _ ⟨hlater, hxy, hwsize⟩ => hrest w x y hw hlater hxy hwsize
    exact Nat.lt_of_lt_of_le (hg2 s hs) (Nat.le_add_right _ _)

end Agrees

end ArenaScheme
