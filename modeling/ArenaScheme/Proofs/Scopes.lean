import ArenaScheme.Proofs.Frames
import ArenaScheme.Proofs.SymbolTable

/-! Frames are finite maps. The bindings of a frame form a search tree by the digests of names and
the positions of symbols. Collections keep both, so that the trees stay in order; a new binding
joins the tree of its own frame and no other. -/

namespace ArenaScheme

open Memory Heap

variable {may : Effect → Prop} {words : List Nat} {bytes : List UInt8} {m : Memory}
  {a b frame k n size symbol value : Nat} {place : Nat → Nat} {kept : Nat → Prop}

theorem Memory.mem_binding_references {r : Nat} (h : m.kind r = .binding) (hk : k < 4) :
    k ∈ m.referenceFields r := by
  rw [binding_references h]
  simp only [List.mem_cons, List.not_mem_nil, or_false]
  omega

namespace Heap

variable {rules : Rules} {h g : Heap} {f r s : Nat} {bs : List Nat} {all all' : Prop}
  {shown shown' : Nat → Prop}

/-! The order of bindings. -/

theorem keyBefore_iff : h.keyBefore a b = true ↔
    h.nameDigest a < h.nameDigest b ∨ (h.nameDigest a = h.nameDigest b ∧ a < b) := by
  simp only [keyBefore, Bool.or_eq_true, Bool.and_eq_true, decide_eq_true_eq, beq_iff_eq]

theorem keyBefore_irrefl (h : Heap) (a : Nat) : h.keyBefore a a = false := by
  rw [Bool.eq_false_iff, Ne, keyBefore_iff]
  omega

theorem keyBefore_trans {c : Nat} (hab : h.keyBefore a b = true) (hbc : h.keyBefore b c = true) :
    h.keyBefore a c = true := by
  rw [keyBefore_iff] at *
  omega

theorem keyBefore_total (hne : a ≠ b) (hba : h.keyBefore b a = false) : h.keyBefore a b = true := by
  rw [Bool.eq_false_iff, Ne, keyBefore_iff] at hba
  rw [keyBefore_iff]
  omega

/-- The bindings of a frame, from left to right. -/
structure Scope (h : Heap) (frame : Nat) (bs : List Nat) : Prop where
  tree : Tree h.memory.field 2 3 (h.memory.field frame 1) bs
  sorted : bs.Pairwise fun a b => h.keyBefore (h.memory.field a 0) (h.memory.field b 0) = true
  mem : ∀ b ∈ bs, b ∈ h.records ∧ h.memory.kind b = .binding
  symbol : ∀ b ∈ bs, h.memory.kind (h.memory.field b 0) = .symbol

theorem findBindingFrom_eq_search (h : Heap) (symbol fuel x : Nat) :
    h.findBindingFrom symbol fuel x = Tree.search h.looseField 2 3
      (fun b => h.looseField b 0 == symbol) (fun b => h.keyBefore symbol (h.looseField b 0)) fuel
      x := by
  induction fuel generalizing x with
  | zero => rfl
  | succ fuel ih =>
    rw [Heap.findBindingFrom, Tree.search]
    simp only [← ih, beq_iff_eq]
    by_cases hbefore : h.keyBefore symbol (h.looseField x 0) = true
    · rw [if_pos hbefore, if_pos hbefore]
    · rw [if_neg hbefore, if_neg hbefore]

namespace Scope

section

variable (hb : h.Scope f bs)
include hb

theorem nodup : bs.Nodup :=
  hb.sorted.imp fun {a b} hlt heq => by
    rw [heq, keyBefore_irrefl] at hlt
    cases hlt

theorem unique {cs : List Nat} (hc : h.Scope f cs) : bs = cs :=
  hb.tree.unique hc.tree

theorem looseField_eq (hs : h.Sound rules) (hmem : b ∈ bs) (hk : k < 4) :
    h.looseField b k = h.memory.field b k := by
  obtain ⟨hrecord, hkind⟩ := hb.mem b hmem
  exact hs.looseField_eq hrecord (field_end_le_extent (mem_binding_references hkind hk))

/-- What hangs in the tree of the frame is among its bindings. -/
theorem mem_of_hangs (hhangs : h.Hangs f b) : b ∈ bs := by
  induction hhangs with
  | root hne => exact hb.tree.root_mem hne
  | child _ hside hne ih => exact hb.tree.child_mem ih hside hne

theorem hangs : ∀ b ∈ bs, h.Hangs f b :=
  hb.tree.forall_mem .root fun _ _ hup hside hne => hup.child hside hne

theorem bindsSymbols : h.BindsSymbols f := fun b hhangs =>
  hb.symbol b (hb.mem_of_hangs hhangs)

/-- The tree as the search sees it. -/
theorem loose (hs : h.Sound rules) :
    Tree h.looseField 2 3 (h.memory.field f 1) bs :=
  hb.tree.congr fun _ hmem =>
    ⟨hb.looseField_eq hs hmem (by decide), hb.looseField_eq hs hmem (by decide)⟩

theorem length_le (hs : h.Sound rules) : bs.length ≤ h.capacity :=
  hs.length_le hb.nodup fun b hmem => (hb.mem b hmem).1

/-- The binding of a symbol in a frame is found. -/
theorem findBinding_eq_some_iff (hs : h.Sound rules) (hf : f ∈ h.records)
    (hk : h.memory.kind f = .environment) :
    h.findBinding f s = some b ↔ b ∈ bs ∧ h.memory.field b 0 = s := by
  have hroot : h.looseField f 1 = h.memory.field f 1 :=
    hs.looseField_eq hf (field_end_le_extent (by rw [environment_references hk]; decide))
  rw [findBinding, findBindingFrom_eq_search, hroot,
    (hb.loose hs).search_eq_some_iff (hb.length_le hs), beq_iff_eq]
  · refine and_congr_right fun hmem => ?_
    rw [hb.looseField_eq hs hmem (by decide)]
  · refine hb.sorted.imp_of_mem fun {a c} ha hc hlt => ?_
    rw [hb.looseField_eq hs ha (by decide), hb.looseField_eq hs hc (by decide), beq_iff_eq,
      beq_iff_eq]
    have hne : h.memory.field a 0 ≠ h.memory.field c 0 := fun heq => by
      rw [heq, keyBefore_irrefl] at hlt
      cases hlt
    refine ⟨fun heq => ?_, fun heq => ?_⟩
    · subst heq
      exact ⟨beq_false_of_ne hne.symm, hlt⟩
    · subst heq
      refine ⟨beq_false_of_ne hne, Bool.eq_false_iff.mpr fun hgt => ?_⟩
      have := keyBefore_trans hlt hgt
      rw [keyBefore_irrefl] at this
      cases this

/-- What a scope depends on. -/
theorem congr (hframe : g.memory.field f 1 = h.memory.field f 1)
    (hmem : ∀ b ∈ bs, b ∈ g.records ∧ g.memory.kind b = .binding)
    (hfield : ∀ b ∈ bs, ∀ k < 4, k ≠ 1 → g.memory.field b k = h.memory.field b k)
    (hdigest : ∀ b ∈ bs,
      g.nameDigest (h.memory.field b 0) = h.nameDigest (h.memory.field b 0) ∧
        g.memory.kind (h.memory.field b 0) = .symbol) :
    g.Scope f bs where
  tree := by
    rw [hframe]
    exact hb.tree.congr fun b hb => ⟨hfield b hb 2 (by decide) (by decide),
      hfield b hb 3 (by decide) (by decide)⟩
  sorted := by
    refine hb.sorted.imp_of_mem fun {a c} ha hc hlt => ?_
    rw [hfield a ha 0 (by decide) (by decide), hfield c hc 0 (by decide) (by decide)]
    rw [keyBefore_iff] at hlt ⊢
    rwa [(hdigest a ha).1, (hdigest c hc).1]
  mem := hmem
  symbol b hb := by
    rw [hfield b hb 0 (by decide) (by decide)]
    exact (hdigest b hb).2

end

end Scope

/-- What a binding binds is a record, and so is the value. -/
theorem Sound.binding_field_mem (hs : h.Sound rules) (hb : b ∈ h.records)
    (hk : h.memory.kind b = .binding) (hlt : k < 2) : h.memory.field b k ∈ h.records := by
  rcases hs.allowed b hb k (mem_binding_references hk (by omega)) with ⟨-, hmay⟩ | ⟨hmem, -⟩
  · rw [hk] at hmay
    simp only [Kind.mayBeAbsent, decide_eq_true_eq] at hmay
    omega
  · exact hmem

theorem Sound.binding_key_mem (hs : h.Sound rules) (hb : b ∈ h.records)
    (hk : h.memory.kind b = .binding) : h.memory.field b 0 ∈ h.records :=
  hs.binding_field_mem hb hk (by decide)

/-- A kept record takes along what it leads to. -/
theorem Relocation.kept_field (hr : h.Relocation kept place g) (wf : h.WellFormed) (hkept : kept r)
    (hk : k ∈ h.memory.referenceFields r) (hmem : h.memory.field r k ∈ h.records) :
    kept (h.memory.field r k) ∧ g.memory.field (place r) k = place (h.memory.field r k) := by
  rcases (hr.record r hkept).reference k hk with ⟨habs, -⟩ | ⟨hkept', heq⟩
  · exact absurd habs (wf.ne_absent hmem)
  · exact ⟨hkept', heq.symm⟩

/-- Bindings that move stay in order, since their symbols do. -/
theorem Scope.relocate (hb : h.Scope f bs) (hs : h.Sound rules) (hr : h.Relocation kept place g)
    (hk : h.memory.kind f = .environment) (hkept : kept f) :
    g.Scope (place f) (bs.map place) ∧ ∀ b ∈ bs, kept b := by
  have hroot := (hr.record f hkept).reference 1 (by rw [environment_references hk]; decide)
  have hfields : ∀ b ∈ bs, kept b → ∀ k, k = 2 ∨ k = 3 →
      Linked (Goes kept place) (h.memory.field b k) (g.memory.field (place b) k) := by
    intro b hmem hkept k hk
    exact (hr.record b hkept).reference k
      (mem_binding_references (hb.mem b hmem).2 (by omega))
  obtain ⟨htree, hall⟩ := hb.tree.relocate hroot
    (fun habs => hs.wf.ne_absent (hr.mem _ habs) rfl)
    (fun z hz => hr.wellFormed.ne_absent (hr.mem_records hz)) hfields
  have hkey : ∀ b ∈ bs, kept (h.memory.field b 0) ∧
      g.memory.field (place b) 0 = place (h.memory.field b 0) := fun b hmem =>
    hr.kept_field hs.wf (hall b hmem) (by rw [binding_references (hb.mem b hmem).2]; decide)
      (hs.binding_key_mem (hb.mem b hmem).1 (hb.mem b hmem).2)
  have hdigest : ∀ b ∈ bs, g.nameDigest (place (h.memory.field b 0)) =
      h.nameDigest (h.memory.field b 0) := by
    intro b hmem
    have hkind := hb.symbol b hmem
    have hmatch := hr.record _ (hkey b hmem).1
    rw [hs.nameDigest_eq (hs.binding_key_mem (hb.mem b hmem).1 (hb.mem b hmem).2) hkind,
      (hs.relocate hr).nameDigest_eq (hr.mem_records (hkey b hmem).1) (hmatch.kind.trans hkind),
      hmatch.digest hkind]
  refine ⟨⟨htree, ?_, fun c hc => ?_, fun c hc => ?_⟩, hall⟩
  · rw [List.pairwise_map]
    refine hb.sorted.imp_of_mem fun {a c} ha hc hlt => ?_
    rw [(hkey a ha).2, (hkey c hc).2]
    rw [keyBefore_iff] at hlt ⊢
    rwa [hdigest a ha, hdigest c hc, hr.lt_iff (hkey a ha).1 (hkey c hc).1]
  · obtain ⟨b, hmem, rfl⟩ := List.mem_map.mp hc
    exact ⟨hr.mem_records (hall b hmem),
      (hr.record b (hall b hmem)).kind.trans (hb.mem b hmem).2⟩
  · obtain ⟨b, hmem, rfl⟩ := List.mem_map.mp hc
    rw [(hkey b hmem).2]
    exact (hr.record _ (hkey b hmem).1).kind.trans (hb.symbol b hmem)

/-! What all heaps have in common. -/

/-- The trees of a heap are in order: all symbols stand in the symbol table, and each of the frames
that are shown has its own bindings. If `all` holds, no frame binds anything but symbols that are not
reserved. -/
structure Ranged (h : Heap) (all : Prop) (shown : Nat → Prop) : Prop where
  table : h.Indexed
  scope : ∀ f ∈ h.records, h.memory.kind f = .environment → shown f → ∃ bs, h.Scope f bs
  apart : ∀ f ∈ h.records, ∀ f' ∈ h.records, h.memory.kind f = .environment →
    h.memory.kind f' = .environment → shown f → shown f' → f ≠ f' → ∀ bs cs, h.Scope f bs →
    h.Scope f' cs → ∀ b ∈ bs, b ∉ cs
  bindable : all → ∀ b ∈ h.records, h.memory.kind b = .binding → h.Bindable (h.memory.field b 0)

/-- All trees of the heap are in order. -/
abbrev Tidy (h : Heap) : Prop := h.Ranged True fun _ => True

theorem Ranged.mono (ht : h.Ranged all shown) (hall : all' → all)
    (hshown : ∀ f, shown' f → shown f) : h.Ranged all' shown' where
  table := ht.table
  scope f hf hk hsf := ht.scope f hf hk (hshown f hsf)
  apart p hp q hq hkp hkq hsp hsq := ht.apart p hp q hq hkp hkq (hshown p hsp) (hshown q hsq)
  bindable hb := ht.bindable (hall hb)

theorem Ranged.relocate (ht : h.Ranged all shown) (hs : h.Sound rules)
    (hr : h.Relocation kept place g) (hshown : ∀ f, kept f → shown' (place f) → shown f) :
    g.Ranged all shown' := by
  have hkind : ∀ r, kept r → g.memory.kind (place r) = h.memory.kind r := fun r hkept =>
    (hr.record r hkept).kind
  -- The scopes of the new heap are those of the old one, moved.
  have hscope : ∀ f, kept f → h.memory.kind f = .environment → shown' (place f) →
      ∃ bs, h.Scope f bs ∧ g.Scope (place f) (bs.map place) ∧ ∀ b ∈ bs, kept b :=
    fun f hkept hk hf => by
      obtain ⟨bs, hb⟩ := ht.scope f (hr.mem f hkept) hk (hshown f hkept hf)
      exact ⟨bs, hb, hb.relocate hs hr hk hkept⟩
  refine ⟨?_, ?_, ?_, ?_⟩
  · obtain ⟨rs, htable⟩ := ht.table
    exact ⟨_, (htable.relocate hs hr).1⟩
  · intro f' hf' hk hf
    obtain ⟨f, hkept, rfl⟩ := (hr.records f').mp hf'
    obtain ⟨bs, -, hb, -⟩ := hscope f hkept ((hkind f hkept).symm.trans hk) hf
    exact ⟨_, hb⟩
  · intro p hp q hq hkp hkq hsp hsq hne bs cs hb hc b' hb' hc'
    obtain ⟨p, hkeptp, rfl⟩ := (hr.records p).mp hp
    obtain ⟨q, hkeptq, rfl⟩ := (hr.records q).mp hq
    rw [hkind p hkeptp] at hkp
    rw [hkind q hkeptq] at hkq
    obtain ⟨as, ha, hmoved, hall⟩ := hscope p hkeptp hkp hsp
    obtain ⟨ds, hd, hmoved', hall'⟩ := hscope q hkeptq hkq hsq
    rw [hb.unique hmoved] at hb'
    rw [hc.unique hmoved'] at hc'
    obtain ⟨a, hmem, rfl⟩ := List.mem_map.mp hb'
    obtain ⟨d, hmem', heq⟩ := List.mem_map.mp hc'
    have hsame := hr.injective (hall' d hmem') (hall a hmem) heq
    subst hsame
    exact ht.apart p (hr.mem p hkeptp) q (hr.mem q hkeptq) hkp hkq (hshown p hkeptp hsp)
      (hshown q hkeptq hsq) (fun heq => hne (heq ▸ rfl)) as ds ha hd d hmem hmem'
  · intro hall b' hb' hk
    obtain ⟨b, hkept, rfl⟩ := (hr.records b').mp hb'
    rw [hkind b hkept] at hk
    obtain ⟨hkey, heq⟩ := hr.kept_field hs.wf hkept (by rw [binding_references hk]; decide)
      (hs.binding_key_mem (hr.mem b hkept) hk)
    rw [heq]
    exact (ht.bindable hall b (hr.mem b hkept) hk).matched (hr.record _ hkey)

/-- `g` has the frames, bindings and symbols of `h`, but for the values of bindings and the links
among symbols. -/
structure KeepsScopes (h g : Heap) : Prop where
  mem : ∀ r ∈ h.records, r ∈ g.records
  kind : ∀ r ∈ h.records, g.memory.kind r = h.memory.kind r
  frame : ∀ f ∈ h.records, h.memory.kind f = .environment → ∀ k < 2,
    g.memory.field f k = h.memory.field f k
  binding : ∀ b ∈ h.records, h.memory.kind b = .binding → ∀ k < 4, k ≠ 1 →
    g.memory.field b k = h.memory.field b k
  symbol : ∀ s ∈ h.records, h.memory.kind s = .symbol →
    g.memory.field s 2 = h.memory.field s 2 ∧ g.nameBytes s = h.nameBytes s

namespace KeepsScopes

theorem of_memory (hmemory : g.memory = h.memory) (hrecords : g.records = h.records) :
    KeepsScopes h g where
  mem _ hr := hrecords ▸ hr
  kind _ _ := by rw [hmemory]
  frame _ _ _ _ _ := by rw [hmemory]
  binding _ _ _ _ _ _ := by rw [hmemory]
  symbol _ _ _ := by
    unfold nameBytes Heap.field
    rw [hmemory]
    exact ⟨rfl, rfl⟩

theorem trans {k : Heap} (h1 : KeepsScopes h k) (h2 : KeepsScopes k g) : KeepsScopes h g where
  mem r hr := h2.mem r (h1.mem r hr)
  kind r hr := (h2.kind r (h1.mem r hr)).trans (h1.kind r hr)
  frame f hf hk i hi := (h2.frame f (h1.mem f hf) ((h1.kind f hf).trans hk) i hi).trans
    (h1.frame f hf hk i hi)
  binding b hb hk i hi hne := (h2.binding b (h1.mem b hb) ((h1.kind b hb).trans hk) i hi hne).trans
    (h1.binding b hb hk i hi hne)
  symbol s hs hk :=
    have hfirst := h1.symbol s hs hk
    have hsecond := h2.symbol s (h1.mem s hs) ((h1.kind s hs).trans hk)
    ⟨hsecond.1.trans hfirst.1, hsecond.2.trans hfirst.2⟩

theorem nameDigest (hkeeps : KeepsScopes h g) (hs : h.Sound rules) (hg : g.Sound rules)
    (hr : r ∈ h.records) (hk : h.memory.kind r = .symbol) : g.nameDigest r = h.nameDigest r := by
  rw [hs.nameDigest_eq hr hk, hg.nameDigest_eq (hkeeps.mem r hr) ((hkeeps.kind r hr).trans hk),
    (hkeeps.symbol r hr hk).1]

theorem scope (hkeeps : KeepsScopes h g) (hs : h.Sound rules) (hg : g.Sound rules)
    (hb : h.Scope f bs) (hf : f ∈ h.records) (hk : h.memory.kind f = .environment) :
    g.Scope f bs := by
  refine hb.congr (hkeeps.frame f hf hk 1 (by decide)) (fun b hmem => ?_) (fun b hmem => ?_)
    fun b hmem => ?_
  all_goals obtain ⟨hrecord, hkind⟩ := hb.mem b hmem
  · exact ⟨hkeeps.mem b hrecord, (hkeeps.kind b hrecord).trans hkind⟩
  · exact hkeeps.binding b hrecord hkind
  · have hkey := hs.binding_key_mem hrecord hkind
    have hsymbol := hb.symbol b hmem
    exact ⟨hkeeps.nameDigest hs hg hkey hsymbol, (hkeeps.kind _ hkey).trans hsymbol⟩

theorem bindable (hkeeps : KeepsScopes h g) (hb : h.Bindable s) (hs : s ∈ h.records) :
    g.Bindable s where
  kind := (hkeeps.kind s hs).trans hb.kind
  free := (hkeeps.symbol s hs hb.kind).2 ▸ hb.free

end KeepsScopes

/-- Beyond the frames and bindings of `h`, there are but empty frames in `g`. -/
structure SameScopes (h g : Heap) : Prop extends KeepsScopes h g where
  fresh : ∀ r ∈ g.records, r ∉ h.records → g.memory.kind r ≠ .binding ∧
    (g.memory.kind r = .environment → g.memory.field r 1 = absent)

namespace SameScopes

theorem of_memory (hmemory : g.memory = h.memory) (hrecords : g.records = h.records) :
    SameScopes h g where
  toKeepsScopes := .of_memory hmemory hrecords
  fresh _ hr hnot := absurd (hrecords ▸ hr) hnot

theorem trans {k : Heap} (h1 : SameScopes h k) (h2 : SameScopes k g) : SameScopes h g where
  toKeepsScopes := h1.toKeepsScopes.trans h2.toKeepsScopes
  fresh r hr hnot := by
    by_cases hmem : r ∈ k.records
    · obtain ⟨hbinding, hframe⟩ := h1.fresh r hmem hnot
      rw [h2.kind r hmem]
      exact ⟨hbinding, fun hk => (h2.frame r hmem hk 1 (by decide)).trans (hframe hk)⟩
    · exact h2.fresh r hr hmem

/-- A new frame has no bindings. -/
theorem scope_fresh (hsame : SameScopes h g) (hr : r ∈ g.records) (hnot : r ∉ h.records)
    (hk : g.memory.kind r = .environment) : g.Scope r [] where
  tree := by
    rw [(hsame.fresh r hr hnot).2 hk]
    exact .empty
  sorted := .nil
  mem b hb := nomatch hb
  symbol b hb := nomatch hb

theorem ranged (hsame : SameScopes h g) (hs : h.Sound rules) (hg : g.Sound rules)
    (ht : h.Ranged all shown) (htable : g.Indexed) (hshown : ∀ f ∈ h.records, shown' f → shown f) :
    g.Ranged all shown' := by
  have hscope : ∀ f ∈ g.records, g.memory.kind f = .environment → shown' f → ∃ bs, g.Scope f bs ∧
      (bs = [] ∨ (f ∈ h.records ∧ h.memory.kind f = .environment ∧ h.Scope f bs)) := by
    intro f hf hk hsf
    by_cases hmem : f ∈ h.records
    · rw [hsame.kind f hmem] at hk
      obtain ⟨bs, hb⟩ := ht.scope f hmem hk (hshown f hmem hsf)
      exact ⟨bs, hsame.scope hs hg hb hmem hk, Or.inr ⟨hmem, hk, hb⟩⟩
    · exact ⟨[], hsame.scope_fresh hf hmem hk, Or.inl rfl⟩
  refine ⟨htable, fun f hf hk hsf => ?_, ?_, fun hall b hb hk => ?_⟩
  · obtain ⟨bs, hb, -⟩ := hscope f hf hk hsf
    exact ⟨bs, hb⟩
  · intro p hp q hq hkp hkq hsp hsq hne bs cs hb hc b hmem hmem'
    obtain ⟨as, ha, hold⟩ := hscope p hp hkp hsp
    obtain ⟨ds, hd, hold'⟩ := hscope q hq hkq hsq
    obtain rfl := hb.unique ha
    obtain rfl := hc.unique hd
    rcases hold with rfl | ⟨hp, hkp, hb⟩
    · cases hmem
    rcases hold' with rfl | ⟨hq, hkq, hc⟩
    · cases hmem'
    exact ht.apart p hp q hq hkp hkq (hshown p hp hsp) (hshown q hq hsq) hne bs cs hb hc b hmem hmem'
  · by_cases hmem : b ∈ h.records
    · rw [hsame.kind b hmem] at hk
      rw [hsame.binding b hmem hk 0 (by decide) (by decide)]
      exact hsame.bindable (ht.bindable hall b hmem hk) (hs.binding_key_mem hmem hk)
    · exact absurd hk (hsame.fresh b hb hmem).1

end SameScopes

/-- A new record leaves the others alone. -/
theorem Pushed.keepsScopes {kind : Kind} (hm : h.Pushed rules kind words bytes size m)
    (hs : h.Sound rules) : KeepsScopes h { h with memory := m, top := h.top + size } := by
  have hmatch : ∀ r ∈ h.records, Matches Eq h.memory r m r := fun r hr =>
    hm.matches_self hs.wf hr
  refine ⟨fun r hr => (hm.lasts hs.wf hr).mem, fun r hr => (hmatch r hr).kind, ?_, ?_, ?_⟩
  · intro f hf hk k hlt
    refine (hmatch f hf).reference_eq ?_
    rw [environment_references hk, List.mem_cons, List.mem_singleton]
    omega
  · intro b hb hk k hlt _
    exact (hmatch b hb).reference_eq (mem_binding_references hk hlt)
  · exact fun s hs hk => ⟨(hmatch s hs).digest hk, (hmatch s hs).nameBytes hk⟩

/-- A new frame is empty: its bindings would be newer, and nothing is newer than this one. -/
theorem Pushed.field_environment (hm : h.Pushed rules .environment words bytes size m)
    (hs : h.Sound rules) : m.field h.top 1 = absent := by
  rcases hm.allowed 1 (by rw [environment_references hm.written.kind]; decide) with
    ⟨habs, -⟩ | ⟨hmem, hfits⟩
  · exact habs
  · exact absurd (hs.wf.lt_top hmem) (Nat.not_lt_of_lt hfits.2)

theorem Pushed.sameScopes {kind : Kind} (hm : h.Pushed rules kind words bytes size m)
    (hs : h.Sound rules) (hkind : kind ≠ .binding) :
    SameScopes h { h with memory := m, top := h.top + size } where
  toKeepsScopes := hm.keepsScopes hs
  fresh r hr hnot := by
    rw [hm.records hs.wf, List.mem_append, List.mem_singleton] at hr
    obtain rfl := hr.resolve_left hnot
    change m.kind h.top ≠ _ ∧ (m.kind h.top = _ → m.field h.top 1 = absent)
    rw [hm.written.kind]
    refine ⟨hkind, ?_⟩
    rintro rfl
    exact hm.field_environment hs

/-- A field that changes after it was written first leaves the frames alone, but for a value. -/
theorem Sound.sameScopes_setField {x l t : Nat} (hs : h.Sound rules)
    (hm : FieldSet h.records h.memory x l t m) (hframe : h.memory.kind x ≠ .environment)
    (hbinding : h.memory.kind x = .binding → l = 1)
    (hsymbol : h.memory.kind x = .symbol → l ∈ h.memory.referenceFields x) :
    SameScopes h { h with memory := m } := by
  refine ⟨⟨fun r hr => (hs.lasts_setField hm hr).mem, fun r hr => hm.kind hr, ?_, ?_, ?_⟩, ?_⟩
  · intro f hf hk k hlt
    refine hm.field hf (fun heq => absurd (heq ▸ hk) hframe) (field_end_le_extent ?_)
    rw [environment_references hk, List.mem_cons, List.mem_singleton]
    omega
  · intro b hb hk k hlt hne
    exact hm.field hb (fun heq hl => hne (hl.trans (hbinding (heq ▸ hk))))
      (field_end_le_extent (mem_binding_references hk hlt))
  · intro s hs hk
    have hmatch := hm.matches_self hs fun heq => hsymbol (heq ▸ hk)
    exact ⟨hmatch.digest hk, hmatch.nameBytes hk⟩
  · intro r hr hnot
    rw [hs.records_setField hm] at hr
    exact absurd hr hnot

/-- A new symbol leaves the frames alone. -/
theorem SymbolAdded.sameScopes {name : List UInt8} {rs : List Nat}
    (ha : h.SymbolAdded rules name g) (hs : h.Sound rules) (ht : h.SymbolTable rs) :
    SameScopes h g := by
  obtain ⟨digest, m, hm, hhung⟩ := ha.added
  have hsk := hm.sound hs
  have hpush := hm.sameScopes hs (by decide)
  have ho := hm.outside hs ht ha.missing
  cases hhung with
  | first _ => exact hpush.trans (.of_memory rfl rfl)
  | below hlink hset =>
    obtain ⟨hnode, hside⟩ := ho.link_mem hsk hlink
    have hkind := ((ho.mem_iff _).mp (Or.inl hnode)).2
    refine hpush.trans (hsk.sameScopes_setField hset ?_ ?_ fun _ => ?_)
    · rw [hkind]
      decide
    · intro hbinding
      rw [hkind] at hbinding
      cases hbinding
    · rw [symbol_references hkind, List.mem_cons, List.mem_singleton]
      exact hside

/-! A new binding. -/

/-- `g` is `h` with a binding on top that hangs at the given field of `node`. -/
structure BindingPut (h : Heap) (node side symbol value : Nat) (g : Heap) : Prop where
  records : g.records = h.records ++ [h.top]
  symbols : g.symbols = h.symbols
  matched : ∀ r ∈ h.records, Matches (fun _ _ => True) h.memory r g.memory r
  field : ∀ r ∈ h.records, ∀ l ∈ h.memory.referenceFields r, (r = node → l ≠ side) →
    g.memory.field r l = h.memory.field r l
  link : g.memory.field node side = h.top
  new_kind : g.memory.kind h.top = .binding
  new_symbol : g.memory.field h.top 0 = symbol
  new_value : g.memory.field h.top 1 = value
  new_leaf : ∀ k, k = 2 ∨ k = 3 → g.memory.field h.top k = absent

/-- The place for a new binding is at the end of a descent through the bindings of the frame. -/
theorem bindingLink_descends {fuel symbol x : Nat} {link : Nat × Nat}
    (ht : Tree h.looseField 2 3 x bs) (hx : h.looseField link.1 link.2 = x)
    (hfuel : bs.length ≤ fuel) :
    Descends h.looseField 2 3 (fun b => h.keyBefore symbol (h.looseField b 0)) x link
      (h.bindingLink symbol fuel link) := by
  induction ht generalizing fuel link with
  | empty =>
    have hstop : h.bindingLink symbol fuel link = link := by
      cases fuel with
      | zero => rfl
      | succ fuel =>
        rw [bindingLink]
        exact if_pos hx
    rw [hstop]
    exact .stop
  | @node x as bs hne _ _ ihl ihr =>
    rw [List.length_append, List.length_cons] at hfuel
    obtain ⟨fuel, rfl⟩ : ∃ f, fuel = f + 1 := ⟨fuel - 1, by omega⟩
    rw [bindingLink]
    simp only [hx, if_neg hne]
    by_cases hbefore : h.keyBefore symbol (h.looseField x 0) = true
    · rw [if_pos hbefore]
      exact .step hne (if_pos hbefore).symm (@ihl fuel (x, 2) rfl (by omega))
    · rw [if_neg hbefore]
      exact .step hne (if_neg hbefore).symm (@ihr fuel (x, 3) rfl (by omega))

/-- A binding that is put on top and hung below an older record. -/
theorem Pushed.bindingPut {node side : Nat} {n : Memory}
    (hm : h.Pushed rules .binding [symbol, value, absent, absent] [] (fieldsSize 4) m)
    (hs : h.Sound rules) (hsymbol : symbol ∈ h.records) (hvalue : value ∈ h.records)
    (hset : FieldSet { h with memory := m, top := h.top + fieldsSize 4 }.records m node side h.top n)
    (hnode : node ∈ h.records) (hside : side ∈ h.memory.referenceFields node) :
    h.BindingPut node side symbol value { h with memory := n, top := h.top + fieldsSize 4 } := by
  have hsk := hm.sound hs
  have hrecords := hm.records hs.wf
  have hsame : ∀ r ∈ h.records, Matches Eq h.memory r m r := fun r hr => hm.matches_self hs.wf hr
  have htop : h.top ∈ h.records ++ [h.top] := by simp
  have hne : h.top ≠ node := fun heq => Nat.lt_irrefl h.top (by
    have := hs.wf.lt_top hnode
    rwa [← heq] at this)
  have hold : ∀ r ∈ h.records, r ∈ h.records ++ [h.top] := fun r hr => List.mem_append_left _ hr
  rw [hrecords] at hset
  have hnew : ∀ k < 4, n.field h.top k = m.field h.top k := fun k hk =>
    hset.field htop (fun heq => absurd heq hne)
      (field_end_le_extent (mem_binding_references hm.written.kind hk))
  have hlt : ∀ r ∈ h.records, r < 4294967296 := fun r hr =>
    Nat.lt_trans (hs.wf.lt_top hr) hs.wf.top_lt
  refine ⟨?_, rfl, fun r hr => ?_, fun r hr l hl hout => ?_, hset.self, ?_, ?_, ?_, ?_⟩
  · rw [← hrecords]
    exact hsk.records_setField (hrecords ▸ hset)
  · refine (hsame r hr).eq_comp (hset.matches_self (hold r hr) ?_)
    rintro rfl
    rwa [(hsame r hr).referenceFields]
  · rw [← (hsame r hr).reference_eq hl]
    refine hset.field (hold r hr) hout ?_
    rw [(hsame r hr).extent]
    exact field_end_le_extent hl
  · exact (hset.kind htop).trans hm.written.kind
  · exact (hnew 0 (by decide)).trans (hm.written.word rfl (hlt _ hsymbol))
  · exact (hnew 1 (by decide)).trans (hm.written.word rfl (hlt _ hvalue))
  · rintro k (rfl | rfl)
    · exact (hnew 2 (by decide)).trans (hm.written.word rfl (by decide))
    · exact (hnew 3 (by decide)).trans (hm.written.word rfl (by decide))

/-- A new binding hangs below a frame or another binding, whatever it binds. -/
theorem BindingAdded.exists_put (ha : h.BindingAdded rules frame symbol value g)
    (hs : h.Sound rules) :
    ∃ node side, h.BindingPut node side symbol value g ∧ node ∈ h.records ∧
      Corr.HoldsBinding (h.memory.kind node) side := by
  obtain ⟨m, hm, hhung⟩ := ha.added
  have hsk := hm.sound hs
  have hold : ∀ r ∈ h.records, r ∈ { h with memory := m, top := h.top + fieldsSize 4 }.records :=
    fun r hr => hm.records hs.wf ▸ List.mem_append_left _ hr
  have hkind : ∀ r ∈ h.records, m.kind r = h.memory.kind r := fun r hr =>
    (hm.matches_self hs.wf hr).kind
  cases hhung with
  | @below node side n hlink hset =>
    have hstart : Corr.BindingLinks (View.diagonal rules (fun _ => True)
        { h with memory := m, top := h.top + fieldsSize 4 }) h.top (frame, 1) (frame, 1) :=
      ⟨View.diagonal_rel (hold frame ha.frame_mem),
        Or.inl ⟨(hkind frame ha.frame_mem).trans ha.frame_kind, rfl⟩,
        hs.wf.lt_top ha.frame_mem, rfl⟩
    have hlinks := (Corr.diagonal hsk fun _ => True).bindingLink
      (Or.inr ⟨rfl, fun _ _ hrel => hrel.2⟩) (hm.fresh hs)
      (View.diagonal_rel (hold symbol ha.symbol_mem))
      (fun hrules => (hkind symbol ha.symbol_mem).trans
        (ha.bindable (by rw [show rules.table = none from hrules]; exact fun heq => nomatch heq)).kind)
      hstart
      (Nat.le_trans hsk.wf.top_le (Nat.le_add_left _ _))
      (Nat.le_trans hsk.wf.top_le (Nat.le_add_left _ _))
    simp only [View.diagonal, hlink] at hlinks
    obtain ⟨hrel, hholds, hlt, -⟩ := hlinks
    have hnode : node ∈ h.records := by
      have hmem := hrel.1.1
      rw [hm.records hs.wf, List.mem_append, List.mem_singleton] at hmem
      exact hmem.resolve_right (Nat.ne_of_lt hlt)
    have hholds' : Corr.HoldsBinding (h.memory.kind node) side := hkind node hnode ▸ hholds
    exact ⟨node, side, hm.bindingPut hs ha.symbol_mem ha.value_mem hset hnode
      (Corr.mem_of_holdsBinding hholds'), hnode, hholds'⟩

/-- A new binding hangs below its frame, or below another binding of the frame. -/
theorem BindingAdded.put (ha : h.BindingAdded rules frame symbol value g) (hs : h.Sound rules)
    (hsymbol : h.memory.kind symbol = .symbol) (hb : h.Scope frame bs) :
    ∃ node side, h.BindingPut node side symbol value g ∧
      Descends h.memory.field 2 3 (fun b => h.keyBefore symbol (h.memory.field b 0))
        (h.memory.field frame 1) (frame, 1) (node, side) ∧
      ((node = frame ∧ side = 1) ∨ (node ∈ bs ∧ (side = 2 ∨ side = 3))) := by
  obtain ⟨m, hm, hhung⟩ := ha.added
  have hsk := hm.sound hs
  have hkeeps := hm.keepsScopes hs
  have hbk := hkeeps.scope hs hsk hb ha.frame_mem ha.frame_kind
  have hframe : m.field frame 1 = h.memory.field frame 1 :=
    hkeeps.frame frame ha.frame_mem ha.frame_kind 1 (by decide)
  cases hhung with
  | @below node side n hlink hset =>
    have hroot := hsk.looseField_eq (r := frame) (k := 1) (hkeeps.mem _ ha.frame_mem)
      (field_end_le_extent (by
        rw [environment_references ((hkeeps.kind _ ha.frame_mem).trans ha.frame_kind)]
        decide))
    have hd := @bindingLink_descends _ _ _ symbol _ (frame, 1) (hbk.loose hsk) hroot
      (hbk.length_le hsk)
    rw [hlink] at hd
    -- The new record is not part of the walk.
    have hd' : Descends h.memory.field 2 3 (fun b => h.keyBefore symbol (h.memory.field b 0))
        (h.memory.field frame 1) (frame, 1) (node, side) := by
      rw [← hframe]
      refine hd.congr (hbk.loose hsk) (fun b hmem k hk => ?_) fun b hmem => ?_
      · rw [hbk.looseField_eq hsk hmem (by omega)]
        exact (hkeeps.binding b (hb.mem b hmem).1 (hb.mem b hmem).2 k (by omega) (by omega)).symm
      · have hkey := hs.binding_key_mem (hb.mem b hmem).1 (hb.mem b hmem).2
        rw [hbk.looseField_eq hsk hmem (by decide),
          hkeeps.binding b (hb.mem b hmem).1 (hb.mem b hmem).2 0 (by decide) (by decide)]
        unfold keyBefore
        rw [hkeeps.nameDigest hs hsk ha.symbol_mem hsymbol,
          hkeeps.nameDigest hs hsk hkey (hb.symbol b hmem)]
    have hwhere : (node = frame ∧ side = 1) ∨ (node ∈ bs ∧ (side = 2 ∨ side = 3)) := by
      rcases hd'.last_mem hb.tree with ⟨-, heq⟩ | ⟨hmem, hside, -⟩
      · cases heq
        exact Or.inl ⟨rfl, rfl⟩
      · exact Or.inr ⟨hmem, hside⟩
    obtain ⟨hnode, hside⟩ : node ∈ h.records ∧ side ∈ h.memory.referenceFields node := by
      rcases hwhere with ⟨rfl, rfl⟩ | ⟨hmem, hside⟩
      · exact ⟨ha.frame_mem, by rw [environment_references ha.frame_kind]; decide⟩
      · exact ⟨(hb.mem node hmem).1, mem_binding_references (hb.mem node hmem).2 (by omega)⟩
    exact ⟨node, side, hm.bindingPut hs ha.symbol_mem ha.value_mem hset hnode hside, hd', hwhere⟩

namespace BindingPut

variable {node side symbol value : Nat}

section

variable (hp : h.BindingPut node side symbol value g)
include hp

theorem mem (hr : r ∈ h.records) :
    r ∈ g.records := by
  rw [hp.records]
  exact List.mem_append_left _ hr

theorem kind (hr : r ∈ h.records) :
    g.memory.kind r = h.memory.kind r :=
  (hp.matched r hr).kind

theorem nameDigest (hs : h.Sound rules) (hg : g.Sound rules) (hr : r ∈ h.records)
    (hk : h.memory.kind r = .symbol) :
    g.nameDigest r = h.nameDigest r := by
  rw [hs.nameDigest_eq hr hk, hg.nameDigest_eq (hp.mem hr) ((hp.kind hr).trans hk),
    (hp.matched r hr).digest hk]

theorem bindable (hb : h.Bindable r) (hr : r ∈ h.records) : g.Bindable r :=
  hb.matched (hp.matched r hr)

/-- A record other than the node stays as it was. -/
theorem same (hr : r ∈ h.records) (hne : r ≠ node) :
    Matches Eq h.memory r g.memory r :=
  { hp.matched r hr with
    reference := fun l hl => Or.inr (hp.field r hr l hl fun heq => absurd heq hne).symm }

theorem sameSymbols (hnode : h.memory.kind node ≠ .symbol) : SameSymbols h g where
  symbols := hp.symbols
  mem_iff r := by
    rw [hp.records, List.mem_append, List.mem_singleton]
    refine ⟨?_, fun ⟨hr, hk⟩ => ⟨Or.inl hr, (hp.kind hr).trans hk⟩⟩
    rintro ⟨hr | rfl, hk⟩
    · exact ⟨hr, (hp.kind hr).symm.trans hk⟩
    · rw [hp.new_kind] at hk
      cases hk
  same r hr hk := hp.same hr fun heq => hnode (heq ▸ hk)

/-- The symbol that a binding binds stays the same. -/
theorem binding_symbol (hside : h.memory.kind node = .binding → 2 ≤ side) (hb : b ∈ h.records)
    (hk : h.memory.kind b = .binding) : g.memory.field b 0 = h.memory.field b 0 :=
  hp.field b hb 0 (mem_binding_references hk (by decide)) fun heq => by
    have := hside (heq ▸ hk)
    omega

/-- The frames below which the new binding does not hang are left alone. -/
theorem scope_other (hs : h.Sound rules) (hg : g.Sound rules) (hb : h.Scope f bs)
    (hf : f ∈ h.records) (hk : h.memory.kind f = .environment) (hne : f ≠ node) (hnot : node ∉ bs) :
    g.Scope f bs := by
  refine hb.congr ?_ (fun b hmem => ?_) (fun b hmem k hlt _ => ?_) fun b hmem => ?_
  · exact hp.field f hf 1 (by rw [environment_references hk]; decide) fun heq => absurd heq hne
  all_goals obtain ⟨hrecord, hkind⟩ := hb.mem b hmem
  · exact ⟨hp.mem hrecord, (hp.kind hrecord).trans hkind⟩
  · exact hp.field b hrecord k (mem_binding_references hkind hlt) fun heq =>
      absurd (heq ▸ hmem) hnot
  · have hkey := hs.binding_key_mem hrecord hkind
    have hsymbol := hb.symbol b hmem
    exact ⟨hp.nameDigest hs hg hkey hsymbol, (hp.kind hkey).trans hsymbol⟩

/-- The new binding takes its place among those of its frame. -/
theorem scope_self (hs : h.Sound rules) (hg : g.Sound rules) (hb : h.Scope f bs)
    (hf : f ∈ h.records) (hk : h.memory.kind f = .environment) (hsymbol : symbol ∈ h.records)
    (hkind : h.memory.kind symbol = .symbol) (hmissing : ∀ b ∈ bs, h.memory.field b 0 ≠ symbol)
    (hd : Descends h.memory.field 2 3 (fun b => h.keyBefore symbol (h.memory.field b 0))
      (h.memory.field f 1) (f, 1) (node, side)) :
    ∃ as cs, bs = as ++ cs ∧ g.Scope f (as ++ h.top :: cs) := by
  have hmono : bs.Pairwise fun a b => h.keyBefore symbol (h.memory.field a 0) = true →
      h.keyBefore symbol (h.memory.field b 0) = true :=
    hb.sorted.imp fun hlt hbefore => keyBefore_trans hbefore hlt
  have hsame : ∀ b ∈ bs, ∀ k, k = 2 ∨ k = 3 → (b = node → k ≠ side) →
      g.memory.field b k = h.memory.field b k := fun b hmem k hk hne =>
    hp.field b (hb.mem b hmem).1 k (mem_binding_references (hb.mem b hmem).2 (by omega)) hne
  have hleaf : Tree g.memory.field 2 3 h.top [h.top] :=
    .leaf (hg.wf.ne_absent (by rw [hp.records]; simp)) (hp.new_leaf 2 (Or.inl rfl))
      (hp.new_leaf 3 (Or.inr rfl))
  obtain ⟨as, cs, rfl, has, hcs, htree⟩ := hd.insert hb.tree (by decide) hb.nodup hmono hp.link
    hsame hleaf
  have hroot : g.memory.field f 1 =
      if h.memory.field f 1 = absent then h.top else h.memory.field f 1 := by
    have hmem : 1 ∈ h.memory.referenceFields f := by rw [environment_references hk]; decide
    rcases hd.last_mem hb.tree with ⟨habs, heq⟩ | ⟨hnode, -, -⟩
    · cases heq
      rw [if_pos habs, hp.link]
    · rw [if_neg fun habs => ?_, hp.field f hf 1 hmem fun heq => ?_]
      · have hkind := (hb.mem node hnode).2
        rw [← heq, hk] at hkind
        cases hkind
      · have hempty := hb.tree
        rw [habs] at hempty
        rw [hempty.eq_nil] at hnode
        cases hnode
  have hside : h.memory.kind node = .binding → 2 ≤ side := fun hbinding => by
    rcases hd.last_mem hb.tree with ⟨-, heq⟩ | ⟨-, hside, -⟩
    · cases heq
      rw [hk] at hbinding
      cases hbinding
    · omega
  have hkey : ∀ b ∈ as ++ cs, g.memory.field b 0 = h.memory.field b 0 := fun b hmem =>
    hp.binding_symbol hside (hb.mem b hmem).1 (hb.mem b hmem).2
  have hbefore : ∀ p q, p ∈ h.records → h.memory.kind p = .symbol → q ∈ h.records →
      h.memory.kind q = .symbol → g.keyBefore p q = h.keyBefore p q := by
    intro p q hp' hkp hq hkq
    unfold keyBefore
    rw [hp.nameDigest hs hg hp' hkp, hp.nameDigest hs hg hq hkq]
  have hbound : ∀ b ∈ as ++ cs, h.memory.field b 0 ∈ h.records ∧
      h.memory.kind (h.memory.field b 0) = .symbol := fun b hmem =>
    ⟨hs.binding_key_mem (hb.mem b hmem).1 (hb.mem b hmem).2, hb.symbol b hmem⟩
  refine ⟨as, cs, rfl, ⟨hroot ▸ htree, ?_, fun b hmem => ?_, fun b hmem => ?_⟩⟩
  · refine pairwise_inserted (hb.sorted.imp_of_mem fun {a b} ha' hb' hlt => ?_) (fun a ha => ?_)
      fun c hc => ?_
    · rw [hkey a ha', hkey b hb', hbefore _ _ (hbound a ha').1 (hbound a ha').2 (hbound b hb').1
        (hbound b hb').2]
      exact hlt
    · have hmem : a ∈ as ++ cs := List.mem_append_left _ ha
      rw [hkey a hmem, hp.new_symbol, hbefore _ _ (hbound a hmem).1 (hbound a hmem).2 hsymbol hkind]
      exact keyBefore_total (hmissing a hmem) (has a ha)
    · have hmem : c ∈ as ++ cs := List.mem_append_right _ hc
      rw [hkey c hmem, hp.new_symbol, hbefore _ _ hsymbol hkind (hbound c hmem).1 (hbound c hmem).2]
      exact hcs c hc
  · rcases mem_inserted.mp hmem with hmem | rfl
    · exact ⟨hp.mem (hb.mem b hmem).1, (hp.kind (hb.mem b hmem).1).trans (hb.mem b hmem).2⟩
    · refine ⟨?_, hp.new_kind⟩
      rw [hp.records]
      simp
  · rcases mem_inserted.mp hmem with hmem | rfl
    · rw [hkey b hmem]
      exact (hp.kind (hbound b hmem).1).trans (hbound b hmem).2
    · rw [hp.new_symbol]
      exact (hp.kind hsymbol).trans hkind

end

end BindingPut

namespace BindingAdded

variable {frame symbol value : Nat}

section

variable (ha : h.BindingAdded rules frame symbol value g)
include ha

theorem symbol_kind (hrules : rules.table ≠ some frame) : h.memory.kind symbol = .symbol :=
  (ha.bindable hrules).kind

/-- No other frame has the node below which the new binding hangs. -/
theorem scope_other (hrules : rules.table ≠ some frame) (hs : h.Sound rules) (hg : g.Sound rules)
    (ht : h.Ranged all shown) (hframe : shown frame) (hb : h.Scope f bs) (hf : f ∈ h.records)
    (hk : h.memory.kind f = .environment) (hshown : shown f) (hne : f ≠ frame) : g.Scope f bs := by
  obtain ⟨cs, hc⟩ := ht.scope frame ha.frame_mem ha.frame_kind hframe
  obtain ⟨node, side, hp, -, hwhere⟩ := ha.put hs (ha.symbol_kind hrules) hc
  rcases hwhere with ⟨rfl, rfl⟩ | ⟨hmem, hside⟩
  · refine hp.scope_other hs hg hb hf hk hne fun hmem => ?_
    have hkind := (hb.mem _ hmem).2
    rw [ha.frame_kind] at hkind
    cases hkind
  · refine hp.scope_other hs hg hb hf hk ?_ ?_
    · rintro rfl
      have hkind := (hc.mem f hmem).2
      rw [hk] at hkind
      cases hkind
    · exact ht.apart frame ha.frame_mem f hf ha.frame_kind hk hframe hshown hne.symm cs bs hc hb node
        hmem

theorem not_bound (hrules : rules.table ≠ some frame) (hs : h.Sound rules) (hb : h.Scope frame bs) :
    ∀ b ∈ bs, h.memory.field b 0 ≠ symbol := fun b hmem heq => by
  have hfind := (hb.findBinding_eq_some_iff hs ha.frame_mem ha.frame_kind).mpr ⟨hmem, heq⟩
  rw [ha.missing (ha.symbol_kind hrules) hb.bindsSymbols] at hfind
  cases hfind

theorem scope_self (hrules : rules.table ≠ some frame) (hs : h.Sound rules) (hg : g.Sound rules)
    (hb : h.Scope frame bs) : ∃ as cs, bs = as ++ cs ∧ g.Scope frame (as ++ h.top :: cs) := by
  obtain ⟨node, side, hp, hd, -⟩ := ha.put hs (ha.symbol_kind hrules) hb
  exact hp.scope_self hs hg hb ha.frame_mem ha.frame_kind ha.symbol_mem (ha.symbol_kind hrules)
    (ha.not_bound hrules hs hb) hd

theorem sameSymbols (hs : h.Sound rules) :
    SameSymbols h g := by
  obtain ⟨node, side, hp, -, hholds⟩ := ha.exists_put hs
  refine hp.sameSymbols fun hk => ?_
  rcases hholds with ⟨hkind, -⟩ | ⟨hkind, -⟩ <;>
    rw [hk] at hkind <;> cases hkind

/-- Frames are in order if they stay as they were, but for the one that has the new binding. -/
theorem ranged_of_scopes (hs : h.Sound rules) (ht : h.Ranged all shown)
    (hbindable : all → h.Bindable symbol)
    (hscopes : ∀ f ∈ h.records, h.memory.kind f = .environment → shown f → ∀ cs, h.Scope f cs →
      ∃ ds, g.Scope f ds ∧ ∀ b ∈ ds, b ∈ cs ∨ (b = h.top ∧ f = frame)) : g.Ranged all shown := by
  obtain ⟨node, side, hp, -, hholds⟩ := ha.exists_put hs
  have hcases : ∀ r ∈ g.records, r ∈ h.records ∨ r = h.top := fun r hr => by
    rw [hp.records, List.mem_append, List.mem_singleton] at hr
    exact hr
  have hfresh : h.top ∉ h.records := fun hmem => Nat.lt_irrefl _ (hs.wf.lt_top hmem)
  have hscope : ∀ f ∈ g.records, g.memory.kind f = .environment → shown f →
      f ∈ h.records ∧ h.memory.kind f = .environment ∧ ∃ cs, h.Scope f cs ∧ ∃ ds, g.Scope f ds ∧
        ∀ b ∈ ds, b ∈ cs ∨ (b = h.top ∧ f = frame) := by
    intro f hf hk hshown
    have hmem := (hcases f hf).resolve_right fun heq => by
      rw [heq, hp.new_kind] at hk
      cases hk
    rw [hp.kind hmem] at hk
    obtain ⟨cs, hc⟩ := ht.scope f hmem hk hshown
    exact ⟨hmem, hk, cs, hc, hscopes f hmem hk hshown cs hc⟩
  refine ⟨?_, fun f hf hk hshown => ?_, ?_, fun hall b hmem hk => ?_⟩
  · obtain ⟨rs, htable⟩ := ht.table
    exact ⟨rs, (ha.sameSymbols hs).table htable⟩
  · obtain ⟨-, -, _, -, ds, hd, -⟩ := hscope f hf hk hshown
    exact ⟨ds, hd⟩
  · intro p hp' q hq hkp hkq hsp hsq hne bs' cs' hb' hc' b hmem hmem'
    obtain ⟨hp', hkp, as, ha', as', hga, hsub⟩ := hscope p hp' hkp hsp
    obtain ⟨hq, hkq, ds, hd', ds', hgd, hsub'⟩ := hscope q hq hkq hsq
    obtain rfl := hb'.unique hga
    obtain rfl := hc'.unique hgd
    rcases hsub b hmem with hold | ⟨rfl, rfl⟩
    · rcases hsub' b hmem' with hold' | ⟨rfl, -⟩
      · exact ht.apart p hp' q hq hkp hkq hsp hsq hne as ds ha' hd' b hold hold'
      · exact hfresh (ha'.mem _ hold).1
    · rcases hsub' _ hmem' with hold' | ⟨-, rfl⟩
      · exact hfresh (hd'.mem _ hold').1
      · exact hne rfl
  · rcases hcases b hmem with hmem | rfl
    · rw [hp.kind hmem] at hk
      rw [hp.binding_symbol hholds.two_le hmem hk]
      exact hp.bindable (ht.bindable hall b hmem hk) (hs.binding_key_mem hmem hk)
    · rw [hp.new_symbol]
      exact hp.bindable (hbindable hall) ha.symbol_mem

theorem ranged (hrules : rules.table ≠ some frame) (hs : h.Sound rules) (hg : g.Sound rules)
    (ht : h.Ranged all shown) (hframe : shown frame) :
    g.Ranged all shown := by
  refine ha.ranged_of_scopes hs ht (fun _ => ha.bindable hrules) fun f hf hk hshown cs hc => ?_
  by_cases heq : f = frame
  · subst heq
    obtain ⟨as, ds, rfl, hself⟩ := ha.scope_self hrules hs hg hc
    exact ⟨_, hself, fun b hmem => (mem_inserted.mp hmem).imp_right fun heq => ⟨heq, rfl⟩⟩
  · exact ⟨cs, ha.scope_other hrules hs hg ht hframe hc hf hk hshown heq, fun _ hmem => Or.inl hmem⟩

end

end BindingAdded

theorem fieldEffect_kinds {effect : Effect} (heffect : h.fieldEffect r k = some effect) :
    h.memory.kind r ≠ .environment ∧ h.memory.kind r ≠ .symbol ∧
      (h.memory.kind r = .binding → k = 1) := by
  unfold fieldEffect at heffect
  refine ⟨fun hk => ?_, fun hk => ?_, fun hk => ?_⟩ <;> rw [hk] at heffect
  · cases heffect
  · cases heffect
  · by_cases hone : k = 1
    · exact hone
    · simp only [if_neg hone] at heffect
      cases heffect

/-- Every step leaves the symbols in order, whatever is bound. -/
theorem Change.indexed (hc : h.Change rules n may g) (hs : h.Sound rules) (ht : h.Indexed) :
    g.Indexed := by
  obtain ⟨rs, htable⟩ := ht
  cases hc with
  | move hmove => exact ⟨_, (htable.relocate hs hmove).1⟩
  | roots _ _ _ _ => exact ⟨rs, htable.tree, htable.sorted, htable.mem_iff⟩
  | record hm hkind _ => exact ⟨rs, (hm.sameSymbols hs.wf (by rintro rfl; cases hkind)).table htable⟩
  | field _ hm heffect _ =>
    exact ⟨rs, (hs.sameSymbols_setField hm (fieldEffect_kinds heffect).2.1).table htable⟩
  | symbol hadded _ =>
    obtain ⟨_, _, -, htable', -⟩ := hadded.table hs htable
    exact ⟨_, htable'⟩
  | binding hadded _ => exact ⟨rs, (hadded.sameSymbols hs).table htable⟩

theorem Evolves.indexed (he : Evolves rules n may h g) (ht : h.Indexed) : g.Indexed := by
  induction he with
  | refl _ _ => exact ht
  | step hs _ hc _ ih => exact ih (hc.indexed hs ht)

theorem Ranged.withRoots (ht : h.Ranged all shown) (roots : Array Ref) :
    { h with roots }.Ranged all shown := by
  obtain ⟨rs, htable⟩ := ht.table
  exact ⟨⟨rs, htable.tree, htable.sorted, htable.mem_iff⟩,
    fun f hf hk hshown => (ht.scope f hf hk hshown).imp fun bs hb =>
      ⟨hb.tree, hb.sorted, hb.mem, hb.symbol⟩,
    fun f hf f' hf' hk hk' hshown hshown' hne bs cs hb hc =>
      ht.apart f hf f' hf' hk hk' hshown hshown' hne bs cs ⟨hb.tree, hb.sorted, hb.mem, hb.symbol⟩
        ⟨hc.tree, hc.sorted, hc.mem, hc.symbol⟩,
    fun hall b hb hk => ⟨(ht.bindable hall b hb hk).kind, (ht.bindable hall b hb hk).free⟩⟩

/-- Every step leaves the trees in order, if a new binding does. -/
theorem Change.ranged (hc : h.Change rules n may g) (hs : h.Sound rules) (hg : g.Sound rules)
    (ht : h.Ranged all shown)
    (hmove : ∀ kept place, h.Relocation kept place g → ∀ f, kept f → shown (place f) → shown f)
    (hbinding : ∀ {frame symbol value}, h.BindingAdded rules frame symbol value g →
      g.Ranged all shown) : g.Ranged all shown := by
  have hindexed := hc.indexed hs ht.table
  cases hc with
  | move hr => exact ht.relocate hs hr (hmove _ _ hr)
  | roots l _ _ _ => exact ht.withRoots l
  | @record kind _ _ _ _ hm hkind =>
    exact (hm.sameScopes hs (by rintro rfl; cases hkind)).ranged hs hg ht hindexed fun _ _ hf => hf
  | @field r k _ _ _ hr hm heffect _ =>
    obtain ⟨hframe, hsymbol, hbinding⟩ := fieldEffect_kinds heffect
    exact (hs.sameScopes_setField hm hframe hbinding fun hk => absurd hk hsymbol).ranged hs hg ht
      hindexed fun _ _ hf => hf
  | symbol hadded _ =>
    obtain ⟨rs, htable⟩ := ht.table
    exact (hadded.sameScopes hs htable).ranged hs hg ht hindexed fun _ _ hf => hf
  | binding hadded _ => exact hbinding hadded

theorem Evolves.tidy (hrules : rules.table = none) (he : Evolves rules n may h g) (ht : h.Tidy) :
    g.Tidy := by
  induction he with
  | refl _ _ => exact ht
  | step hs _ hc hrest ih =>
    exact ih (hc.ranged hs hrest.sound_left ht (fun _ _ _ _ _ _ => trivial) fun hadded =>
      hadded.ranged (by rw [hrules]; exact fun heq => nomatch heq) hs hrest.sound_left ht trivial)

end Heap

end ArenaScheme
