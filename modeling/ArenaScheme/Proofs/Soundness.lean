import ArenaScheme.Proofs.Collection.Isomorphism
import ArenaScheme.Proofs.Updates

/-! The invariant of heaps. Beyond being well formed, a sound heap has in each field a reference
that makes sense there: subtrees hold nodes that are newer than their parent, outer frames and the
parts of tagged values are older, and only some fields may lead nowhere. Pinned records come first,
the singletons among them. It is preserved by moving records, by writing one field and by adding
one record, and everything a heap does is made of these. -/

namespace ArenaScheme

open Memory

variable {g : Heap} {n : Memory} {k p r t : Nat} {place : Nat → Nat} {kept : Nat → Prop}
  {rules : Rules}

/-- What a heap is sure of besides. -/
structure Rules where
  /-- Every closure has a frame. -/
  closures : Bool
  /-- The frame that may bind any record. Without one, only symbols are bound. -/
  table : Option Nat

/-- The rules of a heap on its own, whose clients make closures of what they like. -/
def Rules.bare : Rules := ⟨false, none⟩

def Rules.strict : Rules := ⟨true, none⟩

namespace Kind

/-- The fields that may lead nowhere: subtrees and the outer frame. -/
def mayBeAbsent : Kind → Nat → Bool
  | symbol, _ | environment, _ => true
  | binding, k => 2 ≤ k
  | _, _ => false

/-- Whether field `k` of a record at `r` may lead to a record at `t`. -/
def Fits (rules : Rules) (source : Kind) (k r : Nat) (target : Kind) (t : Nat) : Prop :=
  match source with
  | symbol => target = symbol ∧ r < t
  | environment => if k = 0 then target = environment ∧ t < r else target = binding ∧ r < t
  | binding =>
    if k = 0 then rules.table = none → target = symbol
    else if k = 1 then True else target = binding ∧ r < t
  | tagged => t < r
  | closure => k = 2 → rules.closures = true → target = environment
  | _ => True

theorem Fits.congr {source target : Kind} {q : Nat} (h : source.Fits rules k r target t)
    (hlt : r < t → p < q) (hgt : t < r → q < p) : source.Fits rules k p target q := by
  cases source <;> simp only [Fits] at h ⊢
  case symbol => exact ⟨h.1, hlt h.2⟩
  case closure => exact h
  case environment =>
    split at h
    · rw [if_pos ‹_›]
      exact ⟨h.1, hgt h.2⟩
    · rw [if_neg ‹_›]
      exact ⟨h.1, hlt h.2⟩
  case binding =>
    split at h
    · rw [if_pos ‹_›]
      exact h
    · rw [if_neg ‹_›]
      split at h
      · rw [if_pos ‹_›]
        trivial
      · rw [if_neg ‹_›]
        exact ⟨h.1, hlt h.2⟩
  case tagged => exact hgt h

end Kind

namespace Heap

namespace Relocation

variable {h g : Heap} {kept : Nat → Prop} {place : Nat → Nat} {p q : Nat}

theorem lt_iff (hr : h.Relocation kept place g) (hp : kept p) (hq : kept q) :
    place p < place q ↔ p < q := by
  refine ⟨fun hlt => ?_, hr.increasing p q hp hq⟩
  rcases Nat.lt_trichotomy p q with h | h | h
  · exact h
  · subst h
    omega
  · have := hr.increasing q p hq hp h
    omega

theorem injective (hr : h.Relocation kept place g) (hp : kept p) (hq : kept q)
    (heq : place p = place q) : p = q := by
  have h1 := hr.lt_iff hp hq
  have h2 := hr.lt_iff hq hp
  omega

theorem mem_records (hr : h.Relocation kept place g) (hp : kept p) : place p ∈ g.records :=
  (hr.records _).mpr ⟨p, hp, rfl⟩

end Relocation

/-- Whether `t` may stand in field `k` of the record at `r`. -/
def Allowed (rules : Rules) (h : Heap) (r k t : Nat) : Prop :=
  (t = absent ∧ (h.memory.kind r).mayBeAbsent k = true) ∨
    (t ∈ h.records ∧ (h.memory.kind r).Fits rules k r (h.memory.kind t) t)

/-- The singletons and their places. -/
def fixtures : List (Nat × Kind) :=
  [(null, .null), (truth, .truth), (falsity, .falsity), (eof, .eof)]

namespace WellFormed

variable {h : Heap} {n : Memory} {r k t : Nat}

theorem records_setField (wf : h.WellFormed) (hn : FieldSet h.records h.memory r k t n) :
    { h with memory := n }.records = h.records :=
  records_eq (hn.tiled wf.tiled) wf.top_le_max

/-- A reference may be overwritten with the position of a record. -/
theorem setField (wf : h.WellFormed) (hn : FieldSet h.records h.memory r k t n)
    (ht : k ∈ h.memory.referenceFields r → t = absent ∨ t ∈ h.records) :
    { h with memory := n }.WellFormed := by
  have hrecords := wf.records_setField hn
  refine ⟨Nat.le_trans wf.top_le (Nat.le_of_eq hn.size.symm),
    Nat.le_trans (Nat.le_of_eq hn.size) wf.capacity_le, ?_, ?_, ?_, ?_, ?_⟩
  all_goals rw [hrecords]
  · exact hn.tiled wf.tiled
  · exact fun q hq => (isMarked_eq_of_byte (hn.header q hq)).trans (wf.unmarked q hq)
  · intro q hq l hl
    rw [hn.references q hq] at hl
    by_cases hin : q = r ∧ l = k
    · obtain ⟨rfl, rfl⟩ := hin
      rw [hn.self]
      exact ht hl
    · rw [hn.field hq (fun hqr hlk => hin ⟨hqr, hlk⟩) (field_end_le_extent hl)]
      exact wf.reference q hq l hl
  · exact wf.root
  · exact wf.symbols

end WellFormed

structure Sound (rules : Rules) (h : Heap) : Prop where
  wf : h.WellFormed
  allowed : ∀ r ∈ h.records, ∀ k ∈ h.memory.referenceFields r,
    h.Allowed rules r k (h.memory.field r k)
  symbols : h.symbols ≠ absent → h.memory.kind h.symbols = .symbol
  fixture : ∀ p ∈ fixtures,
    p.1 ∈ h.records ∧ h.memory.kind p.1 = p.2 ∧ h.memory.isPinned p.1 = true
  unique : ∀ r ∈ h.records, ∀ p ∈ fixtures, h.memory.kind r = p.2 → r = p.1
  pinned_before : ∀ p ∈ h.records, ∀ q ∈ h.records, h.memory.isPinned p = true → q < p →
    h.memory.isPinned q = true
  pinning : h.pinning = true → ∀ r ∈ h.records, h.memory.isPinned r = true

namespace Sound

theorem capacity_pos {h : Heap} (hs : h.Sound rules) : 0 < h.capacity :=
  Nat.lt_of_lt_of_le (hs.wf.lt_top (hs.fixture (null, .null) (by decide)).1) hs.wf.top_le

variable {rules : Rules} {h : Heap}

theorem withRoots (hs : h.Sound rules) (roots : Array Ref)
    (hroots : ∀ r ∈ roots, r ∈ h.records) : { h with roots }.Sound rules where
  wf := { hs.wf with root := hroots }
  allowed := hs.allowed
  symbols := hs.symbols
  fixture := hs.fixture
  unique := hs.unique
  pinned_before := hs.pinned_before
  pinning := hs.pinning

theorem withPinning (hs : h.Sound rules) (pinning : Bool)
    (hall : pinning = true → ∀ r ∈ h.records, h.memory.isPinned r = true) :
    { h with pinning }.Sound rules where
  wf := ⟨hs.wf.top_le, hs.wf.capacity_le, hs.wf.tiled, hs.wf.unmarked, hs.wf.reference, hs.wf.root,
    hs.wf.symbols⟩
  allowed := hs.allowed
  symbols := hs.symbols
  fixture := hs.fixture
  unique := hs.unique
  pinned_before := hs.pinned_before
  pinning := hall

/-- Pinned records do not move. -/
theorem place_pinned (hs : h.Sound rules) (hr : h.Relocation kept place g) (hp : p ∈ h.records)
    (hpin : h.memory.isPinned p = true) : place p = p :=
  hr.settled p (hr.pinned p hp hpin) fun q hq hlt =>
    hr.pinned q hq (hs.pinned_before p hp q hq hpin hlt)

theorem relocate (hs : h.Sound rules) (hr : h.Relocation kept place g) : g.Sound rules := by
  have hkind : ∀ p, kept p → g.memory.kind (place p) = h.memory.kind p :=
    fun p hp => (hr.record p hp).kind
  have hpin : ∀ p, kept p → g.memory.isPinned (place p) = h.memory.isPinned p :=
    fun p hp => (hr.record p hp).pinned
  refine ⟨hr.wellFormed, ?_, ?_, ?_, ?_, ?_, ?_⟩
  · intro s hmem k hk
    obtain ⟨r, hkept, rfl⟩ := (hr.records s).mp hmem
    rw [(hr.record r hkept).referenceFields] at hk
    have hold := hs.allowed r (hr.mem r hkept) k hk
    unfold Allowed at hold ⊢
    rw [hkind r hkept]
    rcases (hr.record r hkept).reference k hk with ⟨habs, habs'⟩ | ⟨hkept', heq⟩
    · rw [habs] at hold
      refine Or.inl ⟨habs', ?_⟩
      rcases hold with ⟨-, hmay⟩ | ⟨hmem', -⟩
      · exact hmay
      · exact absurd rfl (hs.wf.ne_absent hmem')
    · rcases hold with ⟨habs, -⟩ | ⟨-, hfits⟩
      · exact absurd habs (hs.wf.ne_absent (hr.mem _ hkept'))
      · rw [← heq, hkind _ hkept']
        exact Or.inr ⟨hr.mem_records hkept',
          hfits.congr (hr.lt_iff hkept hkept').mpr (hr.lt_iff hkept' hkept).mpr⟩
  · intro hne
    rcases hr.symbols with ⟨-, habs⟩ | ⟨hkept, heq⟩
    · exact absurd habs hne
    · rw [← heq, hkind _ hkept]
      exact hs.symbols (hs.wf.ne_absent (hr.mem _ hkept))
  · intro p hp
    obtain ⟨hmem, hk, hpinned⟩ := hs.fixture p hp
    have hkept := hr.pinned _ hmem hpinned
    have hplace := hs.place_pinned hr hmem hpinned
    rw [← hplace, hkind _ hkept, hpin _ hkept]
    exact ⟨hr.mem_records hkept, hk, hpinned⟩
  · intro s hmem p hp hk
    obtain ⟨r, hkept, rfl⟩ := (hr.records s).mp hmem
    rw [hkind r hkept] at hk
    have heq := hs.unique r (hr.mem r hkept) p hp hk
    obtain ⟨hmem', -, hpinned⟩ := hs.fixture p hp
    rw [heq, hs.place_pinned hr hmem' hpinned]
  · intro p hp q hq hpinned hlt
    obtain ⟨p, hkept, rfl⟩ := (hr.records p).mp hp
    obtain ⟨q, hkept', rfl⟩ := (hr.records q).mp hq
    rw [hpin _ hkept] at hpinned
    rw [hpin _ hkept']
    exact hs.pinned_before p (hr.mem p hkept) q (hr.mem q hkept') hpinned
      ((hr.lt_iff hkept' hkept).mp hlt)
  · intro hpinning s hmem
    obtain ⟨r, hkept, rfl⟩ := (hr.records s).mp hmem
    rw [hpin r hkept]
    exact hs.pinning (hr.pinning ▸ hpinning) r (hr.mem r hkept)

theorem records_setField (hs : h.Sound rules) (hn : FieldSet h.records h.memory r k t n) :
    { h with memory := n }.records = h.records :=
  hs.wf.records_setField hn

theorem setField (hs : h.Sound rules) (hn : FieldSet h.records h.memory r k t n)
    (ht : k ∈ h.memory.referenceFields r → h.Allowed rules r k t) :
    { h with memory := n }.Sound rules := by
  have hrecords := hs.records_setField hn
  have hkind : ∀ q ∈ h.records, n.kind q = h.memory.kind q := fun q hq => hn.kind hq
  have hpin : ∀ q ∈ h.records, n.isPinned q = h.memory.isPinned q := fun q hq =>
    isPinned_eq_of_byte (hn.header q hq)
  have hallowed : ∀ q ∈ h.records, ∀ l ∈ n.referenceFields q,
      { h with memory := n }.Allowed rules q l (n.field q l) := by
    intro q hq l hl
    rw [hn.references q hq] at hl
    have hvalue : h.Allowed rules q l (n.field q l) := by
      by_cases hin : q = r ∧ l = k
      · obtain ⟨rfl, rfl⟩ := hin
        rw [hn.self]
        exact ht hl
      · rw [hn.field hq (fun hqr hlk => hin ⟨hqr, hlk⟩) (field_end_le_extent hl)]
        exact hs.allowed q hq l hl
    unfold Allowed at hvalue ⊢
    rw [hrecords]
    change (_ ∧ (n.kind q).mayBeAbsent l = true) ∨
      (_ ∧ (n.kind q).Fits rules l q (n.kind (n.field q l)) (n.field q l))
    rw [hkind q hq]
    exact hvalue.imp_right fun ⟨hmem, hfits⟩ => ⟨hmem, by rw [hkind _ hmem]; exact hfits⟩
  refine ⟨hs.wf.setField hn fun hk => (ht hk).imp And.left And.left, ?_, ?_, ?_, ?_, ?_, ?_⟩
  · rw [hrecords]
    exact hallowed
  · intro hne
    exact (hkind _ (hs.wf.symbols.resolve_left hne)).trans (hs.symbols hne)
  · intro p hp
    obtain ⟨hmem, hk, hpinned⟩ := hs.fixture p hp
    rw [hrecords]
    exact ⟨hmem, (hkind _ hmem).trans hk, (hpin _ hmem).trans hpinned⟩
  · rw [hrecords]
    exact fun q hq p hp hk => hs.unique q hq p hp ((hkind q hq).symm.trans hk)
  · rw [hrecords]
    exact fun p hp q hq hpinned hlt => (hpin q hq).trans
      (hs.pinned_before p hp q hq ((hpin p hp).symm.trans hpinned) hlt)
  · rw [hrecords]
    exact fun hpinning q hq => (hpin q hq).trans (hs.pinning hpinning q hq)

end Sound

/-! Adding one record. -/

/-- `n` is the memory of `h` with one more record of `size` bytes at the top. -/
structure Placed (h : Heap) (kind : Kind) (words : List Nat) (bytes : List UInt8) (size : Nat)
    (n : Memory) : Prop where
  same : ∀ i < h.top, n.byte i = h.memory.byte i
  memory_size : n.size = h.memory.size
  written : Written n h.top kind h.pinning words bytes
  extent : n.extent h.top = size
  fit : h.top + size ≤ h.capacity

namespace Placed

variable {h : Heap} {kind : Kind} {words : List Nat} {bytes : List UInt8} {size : Nat} {n : Memory}

section

variable (hn : h.Placed kind words bytes size n)
include hn

theorem sameBody (wf : h.WellFormed) (hr : r ∈ h.records) :
    SameBody h.memory r n r := by
  have hend := (wf.tiled.bounds hr).2
  exact SameBody.of_bytes fun i hi => hn.same _ (by omega)

theorem byte (wf : h.WellFormed) (hr : r ∈ h.records) :
    n.byte r = h.memory.byte r :=
  hn.same r (wf.lt_top hr)

theorem tiled (wf : h.WellFormed) :
    Tiled n (h.top + size) 0 (h.records ++ [h.top]) :=
  (wf.tiled.congr fun _ hr => (hn.sameBody wf hr).extent).snoc hn.extent

theorem records (wf : h.WellFormed) :
    { h with memory := n, top := h.top + size }.records = h.records ++ [h.top] :=
  records_eq (hn.tiled wf) (Nat.le_trans hn.fit wf.capacity_le)

/-- If the new record leads nowhere but to records, the heap stays well formed. -/
theorem wellFormed (wf : h.WellFormed)
    (hrefs : ∀ k ∈ n.referenceFields h.top, n.field h.top k = absent ∨ n.field h.top k ∈ h.records) :
    { h with memory := n, top := h.top + size }.WellFormed := by
  have hrecords := hn.records wf
  have hcases : ∀ r ∈ h.records ++ [h.top], r ∈ h.records ∨ r = h.top := by simp
  have hmore : ∀ r ∈ h.records, r ∈ h.records ++ [h.top] := fun r hr =>
    List.mem_append_left _ hr
  refine ⟨Nat.le_trans hn.fit (Nat.le_of_eq hn.memory_size.symm),
    Nat.le_trans (Nat.le_of_eq hn.memory_size) wf.capacity_le, ?_, ?_, ?_, ?_, ?_⟩
  all_goals rw [hrecords]
  · exact hn.tiled wf
  · intro r hr
    rcases hcases r hr with hr | rfl
    · exact (isMarked_eq_of_byte (hn.byte wf hr)).trans (wf.unmarked r hr)
    · exact hn.written.unmarked
  · intro r hr k hk
    rcases hcases r hr with hr | rfl
    · rw [(hn.sameBody wf hr).referenceFields] at hk
      rw [(hn.sameBody wf hr).reference hk]
      exact (wf.reference r hr k hk).imp_right (hmore _)
    · exact (hrefs k hk).imp_right (hmore _)
  · exact fun r hr => hmore r (wf.root r hr)
  · exact wf.symbols.imp_right (hmore _)

end

end Placed

/-- The new record makes sense where it is. -/
structure Pushed (rules : Rules) (h : Heap) (kind : Kind) (words : List Nat) (bytes : List UInt8)
    (size : Nat) (n : Memory) : Prop extends Placed h kind words bytes size n where
  common : ∀ p ∈ fixtures, kind ≠ p.2
  allowed : ∀ k ∈ n.referenceFields h.top,
    (n.field h.top k = absent ∧ kind.mayBeAbsent k = true) ∨
    (n.field h.top k ∈ h.records ∧
      kind.Fits rules k h.top (h.memory.kind (n.field h.top k)) (n.field h.top k))

namespace Pushed

variable {rules : Rules} {h : Heap} {kind : Kind} {words : List Nat} {bytes : List UInt8}
  {size : Nat} {n : Memory}

theorem sound (hn : h.Pushed rules kind words bytes size n) (hs : h.Sound rules) :
    { h with memory := n, top := h.top + size }.Sound rules := by
  have hrecords := hn.records hs.wf
  have hbody : ∀ r ∈ h.records, SameBody h.memory r n r := fun r hr => hn.sameBody hs.wf hr
  have hbyte : ∀ r ∈ h.records, n.byte r = h.memory.byte r := fun r hr => hn.byte hs.wf hr
  have hpin : ∀ r ∈ h.records, n.isPinned r = h.memory.isPinned r := fun r hr =>
    isPinned_eq_of_byte (hbyte r hr)
  have hcases : ∀ r ∈ h.records ++ [h.top], r ∈ h.records ∨ r = h.top := by simp
  have hallowed' : ∀ r ∈ h.records ++ [h.top], ∀ k ∈ n.referenceFields r,
      (n.field r k = absent ∧ (n.kind r).mayBeAbsent k = true) ∨
      (n.field r k ∈ h.records ∧
        (n.kind r).Fits rules k r (n.kind (n.field r k)) (n.field r k)) := by
    intro r hr k hk
    rcases hcases r hr with hr | rfl
    · rw [(hbody r hr).referenceFields] at hk
      have hold := hs.allowed r hr k hk
      rw [(hbody r hr).reference hk, (hbody r hr).kind]
      exact hold.imp_right fun ⟨hmem, hfits⟩ => ⟨hmem, by rw [(hbody _ hmem).kind]; exact hfits⟩
    · rw [hn.written.kind]
      exact (hn.allowed k hk).imp_right fun ⟨hmem, hfits⟩ =>
        ⟨hmem, by rw [(hbody _ hmem).kind]; exact hfits⟩
  have hmore : ∀ r ∈ h.records, r ∈ h.records ++ [h.top] := fun r hr =>
    List.mem_append_left _ hr
  refine ⟨hn.wellFormed hs.wf fun k hk => (hn.allowed k hk).imp And.left And.left, ?_, ?_, ?_, ?_,
    ?_, ?_⟩
  all_goals
    try rw [hrecords]
  · intro r hr k hk
    unfold Allowed
    rw [hrecords]
    exact (hallowed' r hr k hk).imp_right fun hh => ⟨hmore _ hh.1, hh.2⟩
  · intro hne
    exact (hbody _ (hs.wf.symbols.resolve_left hne)).kind.trans (hs.symbols hne)
  · intro p hp
    obtain ⟨hmem, hk, hpinned⟩ := hs.fixture p hp
    exact ⟨hmore _ hmem, (hbody _ hmem).kind.trans hk, (hpin _ hmem).trans hpinned⟩
  · intro r hr p hp hk
    rcases hcases r hr with hr | rfl
    · exact hs.unique r hr p hp ((hbody r hr).kind.symm.trans hk)
    · exact absurd (hn.written.kind.symm.trans hk) (hn.common p hp)
  · intro p hp q hq hpinned hlt
    rcases hcases p hp with hp | rfl
    · have hq' := (hcases q hq).resolve_right (Nat.ne_of_lt (Nat.lt_trans hlt (hs.wf.lt_top hp)))
      exact (hpin q hq').trans
        (hs.pinned_before p hp q hq' ((hpin p hp).symm.trans hpinned) hlt)
    · have hq' := (hcases q hq).resolve_right (Nat.ne_of_lt hlt)
      exact (hpin q hq').trans (hs.pinning (hn.written.pinned.symm.trans hpinned) q hq')
  · intro hpinning r hr
    rcases hcases r hr with hr | rfl
    · exact (hpin r hr).trans (hs.pinning hpinning r hr)
    · exact hn.written.pinned.trans hpinning

end Pushed

end Heap

end ArenaScheme
