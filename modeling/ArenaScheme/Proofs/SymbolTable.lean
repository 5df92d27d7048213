import ArenaScheme.Proofs.Symbols
import ArenaScheme.Proofs.Trees

/-! The symbol table holds every symbol once. It is a search tree by the bytes of names, which moves
as a whole when records move and which a new name joins at its place. -/

namespace ArenaScheme

open Memory Heap

variable {words : List Nat} {m n : Memory} {digest k node r s side t x : Nat}

theorem Memory.Matches.reference_eq (h : Matches Eq m r n s) (hk : k ∈ m.referenceFields r) :
    n.field s k = m.field r k := by
  rcases h.reference k hk with ⟨hr, hs⟩ | heq
  · rw [hr, hs]
  · exact heq.symm

theorem Memory.Matches.eq_comp {link : Nat → Nat → Prop} {o : Memory} (h : Matches Eq m r n s)
    (g : Matches link n s o t) : Matches link m r o t := by
  refine ⟨g.kind.trans h.kind, g.pinned.trans h.pinned, fun i hlow hlt hout => ?_, fun k hk => ?_⟩
  · rw [g.payload i hlow (h.extent ▸ hlt) fun hin => hout ((h.inReference_iff i).mp hin),
      h.payload i hlow hlt hout]
  · rw [← h.reference_eq hk]
    exact g.reference k (h.referenceFields ▸ hk)

/-- A field that was set leaves all other records as they were. -/
theorem Memory.FieldSet.matches_other {rs : List Nat} {q : Nat} (h : FieldSet rs m r k t n)
    (hq : q ∈ rs) (hne : q ≠ r) : Matches Eq m q n q := by
  refine ⟨h.kind hq, isPinned_eq_of_byte (h.header q hq),
    fun i _ hi _ => h.other q hq i hi fun heq => absurd heq hne, fun l hl => Or.inr ?_⟩
  exact (h.field hq (fun heq => absurd heq hne) (field_end_le_extent hl)).symm

/-- Names that are in order are different. -/
theorem ne_of_compare_eq_lt {a b : List UInt8} (h : compare a b = .lt) : a ≠ b := by
  rintro rfl
  rw [show compare a a = .eq from Std.ReflCmp.compare_self] at h
  cases h

namespace Heap

/-- The nodes of the symbol table, from left to right, are all the symbols in the order of their
names. -/
structure SymbolTable (h : Heap) (rs : List Nat) : Prop where
  tree : Tree h.memory.field 0 1 h.symbols rs
  sorted : rs.Pairwise fun a b => compare (h.nameBytes a) (h.nameBytes b) = .lt
  mem_iff : ∀ r, r ∈ rs ↔ r ∈ h.records ∧ h.memory.kind r = .symbol

/-- All symbols stand in the symbol table. -/
def Indexed (h : Heap) : Prop := ∃ rs, h.SymbolTable rs

variable {rules : Rules} {h g : Heap} {rs : List Nat} {r s : Nat} {name : List UInt8}

/-- There are not more different records than positions. -/
theorem Sound.length_le (hs : h.Sound rules) (hnodup : rs.Nodup)
    (hmem : ∀ r ∈ rs, r ∈ h.records) : rs.length ≤ h.capacity := by
  have hrecords := (List.subperm_of_subset hnodup hmem).length_le
  have htiled := hs.wf.tiled.length_le
  have htop := hs.wf.top_le
  omega

theorem findSymbolFrom_eq_search (h : Heap) (name : List UInt8) (fuel x : Nat) :
    h.findSymbolFrom name fuel x = Tree.search h.memory.field 0 1 (fun r => h.nameBytes r == name)
      (fun r => compare name (h.nameBytes r) == .lt) fuel x := by
  induction fuel generalizing x with
  | zero => rfl
  | succ fuel ih =>
    rw [Heap.findSymbolFrom, Tree.search, ← ih]
    split
    · rfl
    · split <;> rename_i hcompare
      · rw [if_pos (beq_iff_eq.mpr (Std.LawfulEqCmp.eq_of_compare hcompare).symm)]
      all_goals
        rw [if_neg fun heq => ?_, hcompare]
        · rfl
        · rw [beq_iff_eq.mp heq, show compare name name = .eq from Std.ReflCmp.compare_self]
            at hcompare
          cases hcompare

namespace SymbolTable

section

variable (ht : h.SymbolTable rs)
include ht

theorem nodup : rs.Nodup :=
  ht.sorted.imp fun hlt heq => ne_of_compare_eq_lt hlt (congrArg h.nameBytes heq)

theorem mem_records (hr : r ∈ rs) : r ∈ h.records :=
  ((ht.mem_iff r).mp hr).1

theorem length_le (hs : h.Sound rules) : rs.length ≤ h.capacity :=
  hs.length_le ht.nodup fun _ hr => ht.mem_records hr

/-- The symbol with a given name is found. -/
theorem findSymbol_eq_some_iff (hs : h.Sound rules) :
    h.findSymbol name = some r ↔ r ∈ rs ∧ h.nameBytes r = name := by
  rw [findSymbol, findSymbolFrom_eq_search,
    ht.tree.search_eq_some_iff (ht.length_le hs), beq_iff_eq]
  refine ht.sorted.imp fun {a b} hlt => ⟨fun ha => ?_, fun hb => ?_⟩
  · rw [beq_iff_eq] at ha
    subst ha
    exact ⟨beq_false_of_ne (ne_of_compare_eq_lt hlt).symm, beq_iff_eq.mpr hlt⟩
  · rw [beq_iff_eq] at hb
    subst hb
    have hgt := Std.OrientedCmp.gt_of_lt hlt
    exact ⟨beq_false_of_ne (ne_of_compare_eq_lt hlt), by rw [hgt]; rfl⟩

/-- A name has one symbol. -/
theorem eq_of_nameBytes (hs : h.Sound rules) (hr : r ∈ rs) (hmem : s ∈ rs)
    (heq : h.nameBytes r = h.nameBytes s) : r = s := by
  have hfind := (ht.findSymbol_eq_some_iff hs).mpr ⟨hr, heq⟩
  rw [(ht.findSymbol_eq_some_iff hs).mpr ⟨hmem, rfl⟩] at hfind
  exact (Option.some_inj.mp hfind).symm

/-- No collection loses a symbol. -/
theorem relocate {kept : Nat → Prop} {place : Nat → Nat} (hs : h.Sound rules)
    (hr : h.Relocation kept place g) :
    g.SymbolTable (rs.map place) ∧ ∀ r ∈ rs, kept r := by
  have hfields : ∀ r ∈ rs, kept r → ∀ k, k = 0 ∨ k = 1 →
      Linked (Goes kept place) (h.memory.field r k) (g.memory.field (place r) k) := by
    intro r hmem hkept k hk
    refine (hr.record r hkept).reference k ?_
    rw [symbol_references ((ht.mem_iff r).mp hmem).2, List.mem_cons, List.mem_singleton]
    exact hk
  obtain ⟨htree, hkept⟩ := ht.tree.relocate hr.symbols
    (fun habs => hs.wf.ne_absent (hr.mem _ habs) rfl)
    (fun z hz => hr.wellFormed.ne_absent (hr.mem_records hz)) hfields
  have hname : ∀ r ∈ rs, g.nameBytes (place r) = h.nameBytes r := fun r hmem =>
    (hr.record r (hkept r hmem)).nameBytes ((ht.mem_iff r).mp hmem).2
  refine ⟨⟨htree, ?_, fun s => ⟨fun hmem => ?_, fun ⟨hmem, hk⟩ => ?_⟩⟩, hkept⟩
  · rw [List.pairwise_map]
    refine ht.sorted.imp_of_mem fun {a b} ha hb hlt => ?_
    rw [hname a ha, hname b hb]
    exact hlt
  · obtain ⟨r, hr', rfl⟩ := List.mem_map.mp hmem
    exact ⟨hr.mem_records (hkept r hr'),
      (hr.record r (hkept r hr')).kind.trans ((ht.mem_iff r).mp hr').2⟩
  · obtain ⟨r, hkept', rfl⟩ := (hr.records s).mp hmem
    refine List.mem_map_of_mem ((ht.mem_iff r).mpr ⟨hr.mem r hkept', ?_⟩)
    rw [← hk, (hr.record r hkept').kind]

end

end SymbolTable

/-- `g` has the symbols that `h` has, as they are. -/
structure SameSymbols (h g : Heap) : Prop where
  symbols : g.symbols = h.symbols
  mem_iff : ∀ r, (r ∈ g.records ∧ g.memory.kind r = .symbol) ↔
    (r ∈ h.records ∧ h.memory.kind r = .symbol)
  same : ∀ r ∈ h.records, h.memory.kind r = .symbol → Matches Eq h.memory r g.memory r

namespace SameSymbols

theorem table (hsame : SameSymbols h g) (ht : h.SymbolTable rs) : g.SymbolTable rs where
  tree := by
    rw [hsame.symbols]
    refine ht.tree.congr fun r hr => ?_
    obtain ⟨hmem, hk⟩ := (ht.mem_iff r).mp hr
    have hmatch := hsame.same r hmem hk
    exact ⟨hmatch.reference_eq (by rw [symbol_references hk]; decide),
      hmatch.reference_eq (by rw [symbol_references hk]; decide)⟩
  sorted := by
    refine ht.sorted.imp_of_mem fun {a b} ha hb hlt => ?_
    obtain ⟨hmema, hka⟩ := (ht.mem_iff a).mp ha
    obtain ⟨hmemb, hkb⟩ := (ht.mem_iff b).mp hb
    rwa [(hsame.same a hmema hka).nameBytes hka, (hsame.same b hmemb hkb).nameBytes hkb]
  mem_iff r := (ht.mem_iff r).trans (hsame.mem_iff r).symm

end SameSymbols

theorem Pushed.sameSymbols {kind : Kind} {bytes : List UInt8} {size : Nat}
    (hm : h.Pushed rules kind words bytes size m) (wf : h.WellFormed) (hkind : kind ≠ .symbol) :
    SameSymbols h { h with memory := m, top := h.top + size } where
  symbols := rfl
  mem_iff r := by
    rw [hm.records wf, List.mem_append, List.mem_singleton]
    refine ⟨?_, fun ⟨hr, hk⟩ => ⟨Or.inl hr, (hm.matches_self wf hr).kind.trans hk⟩⟩
    rintro ⟨hr | rfl, hk⟩
    · exact ⟨hr, (hm.matches_self wf hr).kind.symm.trans hk⟩
    · exact absurd (hm.written.kind.symm.trans hk) hkind
  same r hr _ := hm.matches_self wf hr

theorem Sound.sameSymbols_setField {l : Nat} (hs : h.Sound rules)
    (hm : FieldSet h.records h.memory x l t m) (hkind : h.memory.kind x ≠ .symbol) :
    SameSymbols h { h with memory := m } where
  symbols := rfl
  mem_iff r := by
    rw [hs.records_setField hm]
    refine and_congr_right fun hr => ?_
    change m.kind r = _ ↔ _
    rw [hm.kind hr]
  same r hr hk := hm.matches_other hr fun heq => hkind (heq ▸ hk)

/-! A new name. -/

/-- From a node on, the walk to the place of a name is a descent through the tree. -/
theorem symbolLink_descends {fuel x : Nat} {link : Nat × Nat} (ht : Tree h.memory.field 0 1 x rs)
    (hfuel : rs.length ≤ fuel) :
    ∃ last, h.symbolLink name fuel x (some link) = some last ∧
      Descends h.memory.field 0 1 (fun r => compare name (h.nameBytes r) == .lt) x link last := by
  induction ht generalizing fuel link with
  | empty => exact ⟨link, Corr.symbolLink_absent .., .stop⟩
  | @node x as bs hne _ _ ihl ihr =>
    rw [List.length_append, List.length_cons] at hfuel
    obtain ⟨fuel, rfl⟩ : ∃ f, fuel = f + 1 := ⟨fuel - 1, by omega⟩
    rw [symbolLink, if_neg hne]
    by_cases hbefore : (compare name (h.nameBytes x) == .lt) = true
    · obtain ⟨last, heq, hd⟩ := @ihl fuel (x, 0) (by omega)
      simp only [if_pos hbefore]
      exact ⟨last, heq, .step hne (if_pos hbefore).symm hd⟩
    · obtain ⟨last, heq, hd⟩ := @ihr fuel (x, 1) (by omega)
      simp only [if_neg hbefore]
      exact ⟨last, heq, .step hne (if_neg hbefore).symm hd⟩

/-- Where the walk to the place of a name starts makes no difference if it goes on. -/
theorem symbolLink_eq {fuel : Nat} (hx : x ≠ absent) (hfuel : 0 < fuel)
    (link link' : Option (Ref × Nat)) :
    h.symbolLink name fuel x link = h.symbolLink name fuel x link' := by
  obtain ⟨fuel, rfl⟩ : ∃ f, fuel = f + 1 := ⟨fuel - 1, by omega⟩
  rw [symbolLink, symbolLink, if_neg hx, if_neg hx]

/-- The name of a record that was written as a symbol. -/
theorem nameBytes_of_written {pinned : Bool} (hlength : name.length < 4294967296)
    (hw : Written h.memory r .symbol pinned [absent, absent, digest, name.length] name) :
    h.nameBytes r = name := by
  have hfield : h.field r 3 = name.length :=
    (hw.field 3 _ rfl).trans (Nat.mod_eq_of_lt hlength)
  unfold nameBytes
  rw [hfield]
  refine List.ext_getElem (by simp) fun i hi hi' => ?_
  rw [List.getElem_map, List.getElem_range]
  exact hw.byte i _ (List.getElem?_eq_getElem hi')

theorem Pushed.name_length_lt (hm : h.Pushed rules .symbol words name (symbolSize name.length) m)
    (wf : h.WellFormed) : name.length < 4294967296 := by
  have hfit := hm.fit
  have hmax := wf.capacity_le
  unfold symbolSize fieldsSize at hfit
  unfold maxSize at hmax
  omega

/-- All symbols but `x` stand in the table, and none of them has the name of `x`. -/
structure Outside (h : Heap) (rs : List Nat) (x : Nat) (name : List UInt8) : Prop where
  tree : Tree h.memory.field 0 1 h.symbols rs
  sorted : rs.Pairwise fun a b => compare (h.nameBytes a) (h.nameBytes b) = .lt
  mem_iff : ∀ r, (r ∈ rs ∨ r = x) ↔ r ∈ h.records ∧ h.memory.kind r = .symbol
  leaf : Tree h.memory.field 0 1 x [x]
  name_eq : h.nameBytes x = name
  missing : ∀ r ∈ rs, h.nameBytes r ≠ name

/-- A symbol that was just made stands outside the table. -/
theorem Pushed.outside
    (hm : h.Pushed rules .symbol [absent, absent, digest, name.length] name
      (symbolSize name.length) m)
    (hs : h.Sound rules) (ht : h.SymbolTable rs) (hmissing : h.findSymbol name = none) :
    { h with memory := m, top := h.top + symbolSize name.length }.Outside rs h.top name := by
  have hrecords := hm.records hs.wf
  have hsound := hm.sound hs
  generalize hk : { h with memory := m, top := h.top + symbolSize name.length } = k at *
  have hmemory : k.memory = m := by rw [← hk]
  have hsymbols : k.symbols = h.symbols := by rw [← hk]
  clear hk
  subst hmemory
  have hold : ∀ r ∈ rs, Matches Eq h.memory r k.memory r := fun r hr =>
    hm.matches_self hs.wf (ht.mem_records hr)
  have hkind : ∀ r ∈ rs, h.memory.kind r = .symbol := fun r hr => ((ht.mem_iff r).mp hr).2
  have hname : ∀ r ∈ rs, k.nameBytes r = h.nameBytes r := fun r hr =>
    (hold r hr).nameBytes (hkind r hr)
  have hfield : ∀ i, [absent, absent, digest, name.length][i]? = some absent →
      k.memory.field h.top i = absent := fun i hi => hm.written.field i absent hi
  have htop : h.top ≠ absent := hsound.wf.ne_absent (by rw [hrecords]; simp)
  refine ⟨?_, ?_, fun r => ?_, .leaf htop (hfield 0 rfl) (hfield 1 rfl),
    nameBytes_of_written (hm.name_length_lt hs.wf) hm.written, fun r hr heq => ?_⟩
  · rw [hsymbols]
    exact ht.tree.congr fun r hr =>
      ⟨(hold r hr).reference_eq (by rw [symbol_references (hkind r hr)]; decide),
        (hold r hr).reference_eq (by rw [symbol_references (hkind r hr)]; decide)⟩
  · refine ht.sorted.imp_of_mem fun {a b} ha hb hlt => ?_
    rwa [hname a ha, hname b hb]
  · rw [hrecords, List.mem_append, List.mem_singleton, ht.mem_iff]
    refine ⟨?_, fun ⟨hmem, hk⟩ => hmem.imp_left fun hr => ⟨hr, ?_⟩⟩
    · rintro (⟨hr, hk⟩ | rfl)
      · exact ⟨Or.inl hr, (hm.matches_self hs.wf hr).kind.trans hk⟩
      · exact ⟨Or.inr rfl, hm.written.kind⟩
    · exact (hm.matches_self hs.wf hr).kind.symm.trans hk
  · have hfind := (ht.findSymbol_eq_some_iff hs).mpr ⟨hr, (hname r hr).symm.trans heq⟩
    rw [hmissing] at hfind
    cases hfind

/-- Between the names that are not greater and those that are, a new name is in order. -/
theorem sorted_insert {bs cs : List Nat} (hname : h.nameBytes x = name)
    (hsorted : (bs ++ cs).Pairwise fun a b => compare (h.nameBytes a) (h.nameBytes b) = .lt)
    (hmissing : ∀ r ∈ bs ++ cs, h.nameBytes r ≠ name)
    (hbs : ∀ b ∈ bs, (compare name (h.nameBytes b) == .lt) = false)
    (hcs : ∀ c ∈ cs, (compare name (h.nameBytes c) == .lt) = true) :
    (bs ++ x :: cs).Pairwise fun a b => compare (h.nameBytes a) (h.nameBytes b) = .lt := by
  refine pairwise_inserted hsorted (fun b hb => ?_) fun c hc => ?_
  · rw [hname]
    cases hcompare : compare name (h.nameBytes b) with
    | lt =>
      have := hbs b hb
      rw [hcompare] at this
      cases this
    | eq =>
      exact absurd (Std.LawfulEqCmp.eq_of_compare hcompare).symm
        (hmissing b (List.mem_append_left _ hb))
    | gt => exact Std.OrientedCmp.lt_of_gt hcompare
  · rw [hname]
    exact beq_iff_eq.mp (hcs c hc)

namespace Outside

variable {x : Nat}

section

variable (ho : h.Outside rs x name)
include ho

theorem nodup : rs.Nodup :=
  ho.sorted.imp fun hlt heq => ne_of_compare_eq_lt hlt (congrArg h.nameBytes heq)

theorem length_le (hs : h.Sound rules) : rs.length ≤ h.capacity :=
  hs.length_le ho.nodup fun r hr => ((ho.mem_iff r).mp (Or.inl hr)).1

theorem capacity_pos (hs : h.Sound rules) : 0 < h.capacity :=
  Nat.lt_of_le_of_lt (Nat.zero_le _) (Nat.lt_of_lt_of_le
    (hs.wf.lt_top ((ho.mem_iff x).mp (Or.inr rfl)).1) hs.wf.top_le)

/-- Without a place below another symbol there is no other symbol. -/
theorem eq_nil (hs : h.Sound rules) (hlink : h.symbolLink name h.capacity h.symbols none = none) :
    rs = [] := by
  by_cases habs : h.symbols = absent
  · have hempty := ho.tree
    rw [habs] at hempty
    exact hempty.eq_nil
  · obtain ⟨last, heq, -⟩ := @symbolLink_descends h rs name _ _ (0, 0) ho.tree (ho.length_le hs)
    rw [symbolLink_eq habs (ho.capacity_pos hs) _ none, hlink] at heq
    cases heq

theorem descends (hs : h.Sound rules)
    (hlink : h.symbolLink name h.capacity h.symbols none = some (node, side)) :
    h.symbols ≠ absent ∧ Descends h.memory.field 0 1
      (fun r => compare name (h.nameBytes r) == .lt) h.symbols (0, 0) (node, side) := by
  have hne : h.symbols ≠ absent := fun habs => by
    rw [habs, Corr.symbolLink_absent] at hlink
    cases hlink
  obtain ⟨last, heq, hd⟩ := @symbolLink_descends h rs name _ _ (0, 0) ho.tree (ho.length_le hs)
  rw [symbolLink_eq hne (ho.capacity_pos hs) _ none, hlink] at heq
  obtain rfl := Option.some_inj.mp heq
  exact ⟨hne, hd⟩

theorem link_mem (hs : h.Sound rules)
    (hlink : h.symbolLink name h.capacity h.symbols none = some (node, side)) :
    node ∈ rs ∧ (side = 0 ∨ side = 1) := by
  obtain ⟨hne, hd⟩ := ho.descends hs hlink
  rcases hd.last_mem ho.tree with ⟨habs, -⟩ | ⟨hp, hside, -⟩
  · exact absurd habs hne
  · exact ⟨hp, hside⟩

end

end Outside

/-- Hung where its name belongs, the symbol joins the table. -/
theorem SymbolHung.table (hh : h.SymbolHung name x g) (hs : h.Sound rules)
    (ho : h.Outside rs x name) :
    ∃ bs cs, rs = bs ++ cs ∧ g.SymbolTable (bs ++ x :: cs) ∧
      ∀ r, r ∈ rs ∨ r = x → g.nameBytes r = h.nameBytes r := by
  have hxrs : x ∉ rs := fun hr => ho.missing x hr ho.name_eq
  cases hh with
  | first hlink =>
    obtain rfl := ho.eq_nil hs hlink
    refine ⟨[], [], rfl, ⟨ho.leaf, List.pairwise_singleton .., fun r => ?_⟩, fun _ _ => rfl⟩
    rw [List.nil_append, List.mem_singleton]
    exact ⟨fun heq => (ho.mem_iff r).mp (Or.inr heq),
      fun hr => ((ho.mem_iff r).mpr hr).resolve_left List.not_mem_nil⟩
  | @below node side m hlink hset =>
    obtain ⟨hne, hd⟩ := ho.descends hs hlink
    obtain ⟨hnode, hside⟩ := ho.link_mem hs hlink
    have hkind : ∀ r, r ∈ rs ∨ r = x → h.memory.kind r = .symbol := fun r hr =>
      ((ho.mem_iff r).mp hr).2
    have hrecords := hs.records_setField hset
    have hmatch : ∀ r, r ∈ rs ∨ r = x → Matches (fun _ _ => True) h.memory r m r := fun r hr =>
      hset.matches_self ((ho.mem_iff r).mp hr).1 fun _ => by
        rw [symbol_references (hkind node (Or.inl hnode)), List.mem_cons, List.mem_singleton]
        exact hside
    have hname : ∀ r, r ∈ rs ∨ r = x → { h with memory := m }.nameBytes r = h.nameBytes r :=
      fun r hr => (hmatch r hr).nameBytes (hkind r hr)
    have hsame : ∀ r, r ∈ rs ∨ r = x → ∀ k, k = 0 ∨ k = 1 → (r = node → k ≠ side) →
        m.field r k = h.memory.field r k := by
      intro r hr k hk hne
      refine hset.field ((ho.mem_iff r).mp hr).1 hne ?_
      rw [symbol_extent (hkind r hr)]
      omega
    have hxnode : x = node → ∀ k : Nat, k ≠ side := fun heq => absurd (heq ▸ hnode) hxrs
    have hleaf : Tree m.field 0 1 x [x] := ho.leaf.congr fun r hr => by
      rw [List.mem_singleton] at hr
      subst hr
      exact ⟨hsame r (Or.inr rfl) 0 (Or.inl rfl) fun heq => hxnode heq 0,
        hsame r (Or.inr rfl) 1 (Or.inr rfl) fun heq => hxnode heq 1⟩
    have hmono : rs.Pairwise fun a b => (compare name (h.nameBytes a) == .lt) = true →
        (compare name (h.nameBytes b) == .lt) = true :=
      ho.sorted.imp fun {a b} hlt hbefore =>
        beq_iff_eq.mpr (Std.TransCmp.lt_trans (beq_iff_eq.mp hbefore) hlt)
    obtain ⟨bs, cs, rfl, hbs, hcs, htree⟩ := hd.insert ho.tree (by decide) ho.nodup hmono hset.self
      (fun r hr => hsame r (Or.inl hr)) hleaf
    rw [if_neg hne] at htree
    refine ⟨bs, cs, rfl, ⟨htree, ?_, fun r => ?_⟩, hname⟩
    · refine (sorted_insert ho.name_eq ho.sorted ho.missing hbs hcs).imp_of_mem
        fun {a b} ha hb hlt => ?_
      rwa [hname a (mem_inserted.mp ha), hname b (mem_inserted.mp hb)]
    · rw [hrecords, mem_inserted, ho.mem_iff]
      refine and_congr_right fun hr => ?_
      change _ ↔ m.kind r = _
      rw [hset.kind hr]

/-- The new symbol takes its place among the others. -/
theorem SymbolAdded.table (ha : h.SymbolAdded rules name g) (hs : h.Sound rules)
    (ht : h.SymbolTable rs) :
    ∃ bs cs, rs = bs ++ cs ∧ g.SymbolTable (bs ++ h.top :: cs) ∧ g.nameBytes h.top = name ∧
      ∀ r ∈ rs, g.nameBytes r = h.nameBytes r := by
  obtain ⟨digest, m, hm, hhung⟩ := ha.added
  have ho := hm.outside hs ht ha.missing
  obtain ⟨bs, cs, hrs, htable, hname⟩ := hhung.table (hm.sound hs) ho
  refine ⟨bs, cs, hrs, htable, (hname _ (Or.inr rfl)).trans ho.name_eq, fun r hr => ?_⟩
  rw [hname r (Or.inl hr)]
  exact (hm.matches_self hs.wf (ht.mem_records hr)).nameBytes ((ht.mem_iff r).mp hr).2

end Heap


end ArenaScheme
