import ArenaScheme.Proofs.Assignment

/-! The symbol table of corresponding heaps. A walk down the tree meets newer and newer records, so
that it ends before its fuel does, and it takes the same turns on both sides. -/

namespace ArenaScheme

open Memory Heap

variable {h : Heap} {name : List UInt8} {fuel fuel' r : Nat} {rules : Rules}

namespace View

/-- The view with other symbol tables. -/
def withSymbols (v : View) (a b : Nat) : View :=
  { v with left := { v.left with symbols := a }, right := { v.right with symbols := b } }

end View

theorem HeapM.attachSymbol_run (name : List UInt8) (r : Ref) (h : Heap) :
    HeapM.attachSymbol name r h =
      match h.symbolLink name h.capacity h.symbols none with
      | some (node, side) => HeapM.setField node side r h
      | none => .ok () { h with symbols := r } := by
  change (match h.symbolLink name h.capacity h.symbols none with
    | some (node, side) => HeapM.setField node side r
    | none => modify fun h => { h with symbols := r } : HeapM Unit) h = _
  cases h.symbolLink name h.capacity h.symbols none <;> rfl

namespace Corr

variable {v : View} {a b k : Nat}

theorem symbol_child (hv : Corr v) (h : v.Rel a b) (hk : v.left.memory.kind a = .symbol)
    (hlt : k < 2) :
    Linked v.Rel (v.left.field a k) (v.right.field b k) ∧
      (v.left.field a k ≠ absent → v.left.memory.kind (v.left.field a k) = .symbol) ∧
      a < v.left.field a k ∧ b < v.right.field b k := by
  refine hv.newer_field h ?_ fun t s hfits => ?_
  · rw [symbol_references hk, List.mem_cons, List.mem_singleton]
    omega
  · rwa [hk] at hfits

theorem linked_symbols (hv : Corr v) : Linked v.Rel v.left.symbols v.right.symbols := by
  rcases hv.iso.symbols with habs | hrel
  · exact Or.inl habs
  · have hk := hv.left.symbols (hv.left.wf.ne_absent (hv.mem_left hrel))
    exact Or.inr ⟨hrel, hv.visible_of_kind (by rw [hk]; decide)⟩

theorem findSymbolFrom_absent (h : Heap) (name : List UInt8) (fuel : Nat) :
    h.findSymbolFrom name fuel absent = none := by
  cases fuel with
  | zero => rfl
  | succ fuel => rw [Heap.findSymbolFrom, if_pos rfl]

/-- Both walks go the same way; each has the fuel to reach the newest record. -/
theorem findSymbolFrom (hv : Corr v) (name : List UInt8) (hnode : Linked v.Rel a b)
    (hk : a ≠ absent → v.left.memory.kind a = .symbol) (hfuel : v.left.top ≤ a + fuel)
    (hfuel' : v.right.top ≤ b + fuel') :
    Option.Rel (fun x y => v.Rel x y ∧ v.left.memory.kind x = .symbol)
      (v.left.findSymbolFrom name fuel a) (v.right.findSymbolFrom name fuel' b) := by
  induction fuel generalizing a b fuel' with
  | zero =>
    rcases hnode with ⟨rfl, rfl⟩ | hrel
    · rw [findSymbolFrom_absent, findSymbolFrom_absent]
      exact .none
    · exact absurd (hv.left.wf.lt_top (hv.mem_left hrel.1)) (Nat.not_lt_of_le hfuel)
  | succ fuel ih =>
    rcases hnode with ⟨rfl, rfl⟩ | hrel
    · rw [findSymbolFrom_absent, findSymbolFrom_absent]
      exact .none
    · have hb := hv.right.wf.lt_top (hv.mem_right hrel.1)
      obtain ⟨fuel', rfl⟩ : ∃ f, fuel' = f + 1 := ⟨fuel' - 1, by omega⟩
      have hne := hv.left.wf.ne_absent (hv.mem_left hrel.1)
      have hstep : ∀ side < 2, Option.Rel (fun x y => v.Rel x y ∧ v.left.memory.kind x = .symbol)
          (v.left.findSymbolFrom name fuel (v.left.field a side))
          (v.right.findSymbolFrom name fuel' (v.right.field b side)) := by
        intro side hside
        obtain ⟨hlink, hkind, hlt, hlt'⟩ := hv.symbol_child hrel (hk hne) hside
        exact ih hlink hkind (by omega) (by omega)
      rw [Heap.findSymbolFrom, Heap.findSymbolFrom, if_neg hne,
        if_neg (hv.right.wf.ne_absent (hv.mem_right hrel.1)), hv.nameBytes hrel (hk hne)]
      split
      · exact .some ⟨hrel, hk hne⟩
      · exact hstep 0 (by decide)
      · exact hstep 1 (by decide)

theorem findSymbol (hv : Corr v) (name : List UInt8) :
    Option.Rel (fun x y => v.Rel x y ∧ v.left.memory.kind x = .symbol) (v.left.findSymbol name)
      (v.right.findSymbol name) :=
  hv.findSymbolFrom name hv.linked_symbols hv.left.symbols
    (Nat.le_trans hv.left.wf.top_le (Nat.le_add_left _ _))
    (Nat.le_trans hv.right.wf.top_le (Nat.le_add_left _ _))

theorem symbolLink_absent (h : Heap) (name : List UInt8) (fuel : Nat) (link : Option (Ref × Nat)) :
    h.symbolLink name fuel absent link = link := by
  cases fuel with
  | zero => rfl
  | succ fuel => rw [Heap.symbolLink, if_pos rfl]

/-- Links out of corresponding symbols that are older than the record at `r`. -/
def SymbolLinks (v : View) (r : Nat) (p q : Ref × Nat) : Prop :=
  v.Rel p.1 q.1 ∧ v.left.memory.kind p.1 = .symbol ∧ p.1 < r ∧ p.2 = q.2 ∧ p.2 < 2

/-- The walk never meets a record to which nothing leads. -/
theorem symbolLink (hv : Corr v) (name : List UInt8) {link link' : Option (Ref × Nat)}
    (hr : v.left.Fresh r) (hnode : Linked v.Rel a b) (har : a ≠ r)
    (hk : a ≠ absent → v.left.memory.kind a = .symbol)
    (hlink : Option.Rel (SymbolLinks v r) link link') (hfuel : v.left.top ≤ a + fuel)
    (hfuel' : v.right.top ≤ b + fuel') :
    Option.Rel (SymbolLinks v r) (v.left.symbolLink name fuel a link)
      (v.right.symbolLink name fuel' b link') := by
  induction fuel generalizing a b fuel' link link' with
  | zero =>
    rcases hnode with ⟨rfl, rfl⟩ | hrel
    · rwa [symbolLink_absent, symbolLink_absent]
    · exact absurd (hv.left.wf.lt_top (hv.mem_left hrel.1)) (Nat.not_lt_of_le hfuel)
  | succ fuel ih =>
    rcases hnode with ⟨rfl, rfl⟩ | hrel
    · rwa [symbolLink_absent, symbolLink_absent]
    · have hb := hv.right.wf.lt_top (hv.mem_right hrel.1)
      obtain ⟨fuel', rfl⟩ : ∃ f, fuel' = f + 1 := ⟨fuel' - 1, by omega⟩
      have ha := hv.mem_left hrel.1
      have hne := hv.left.wf.ne_absent ha
      rw [Heap.symbolLink, Heap.symbolLink, if_neg hne,
        if_neg (hv.right.wf.ne_absent (hv.mem_right hrel.1)), hv.nameBytes hrel (hk hne)]
      generalize hside : (if compare name (v.left.nameBytes a) == .lt then 0 else 1) = side
      have hlt : side < 2 := by split at hside <;> omega
      have hmem : side ∈ v.left.memory.referenceFields a := by
        rw [symbol_references (hk hne), List.mem_cons, List.mem_singleton]
        omega
      obtain ⟨hchild, hkind, hnewer, hnewer'⟩ := hv.symbol_child hrel (hk hne) hlt
      exact ih hchild (hr.unshared a ha side hmem) hkind
        (.some ⟨hrel, hk hne, Nat.lt_of_le_of_ne (hr.newest a ha) har, rfl, hlt⟩) (by omega)
        (by omega)

theorem sound_withSymbols (hs : h.Sound rules) (hr : r ∈ h.records)
    (hk : h.memory.kind r = .symbol) :
    { h with symbols := r }.Sound rules where
  wf := { hs.wf with symbols := Or.inr hr }
  allowed := hs.allowed
  symbols _ := hk
  fixture := hs.fixture
  unique := hs.unique
  pinned_before := hs.pinned_before
  pinning := hs.pinning

theorem withSymbols (hv : Corr v) (h : v.Rel a b) (hk : v.left.memory.kind a = .symbol) :
    Corr (v.withSymbols a b) where
  left := sound_withSymbols hv.left (hv.mem_left h.1) hk
  right := sound_withSymbols hv.right (hv.mem_right h.1) ((hv.kind_eq h).trans hk)
  iso := { hv.iso with symbols := Or.inr h.1 }
  guarded s hs :=
    have hg := hv.guarded s hs
    ⟨hg.lt, ⟨hg.secluded.pair, hg.secluded.cell,
      ⟨hg.secluded.name.kind, hg.secluded.name.free⟩, hg.secluded.unshared, hg.secluded.only⟩,
      hg.roots⟩

/-- A new symbol is newer than the node it is hung under. -/
theorem attachSymbol (hv : Corr v) (name : List UInt8) (h : v.Rel a b)
    (hk : v.left.memory.kind a = .symbol) (hfresh : v.left.Fresh a) :
    ∃ w, HeapM.attachSymbol name a v.left = .ok () w.left ∧
      HeapM.attachSymbol name b v.right = .ok () w.right ∧ Corr w ∧ SameTerms v w ∧ Updated v w ∧
      v.left.SymbolHung name a w.left ∧ w.rel = v.rel := by
  have hlink : Option.Rel (SymbolLinks v a)
      (v.left.symbolLink name v.left.capacity v.left.symbols none)
      (v.right.symbolLink name v.right.capacity v.right.symbols none) :=
    hv.symbolLink name hfresh hv.linked_symbols hfresh.symbols hv.left.symbols .none
      (Nat.le_trans hv.left.wf.top_le (Nat.le_add_left _ _))
      (Nat.le_trans hv.right.wf.top_le (Nat.le_add_left _ _))
  rw [HeapM.attachSymbol_run, HeapM.attachSymbol_run]
  generalize hp : v.left.symbolLink name v.left.capacity v.left.symbols none = p at hlink ⊢
  generalize v.right.symbolLink name v.right.capacity v.right.symbols none = q at hlink ⊢
  cases hlink with
  | none =>
    exact ⟨v.withSymbols a b, rfl, rfl, hv.withSymbols h hk, ⟨rfl, rfl, rfl⟩,
      ⟨fun _ _ h => h, fun _ _ => rfl, rfl⟩, .first hp, rfl⟩
  | @some p q hlink =>
    obtain ⟨node, side⟩ := p
    obtain ⟨node', side'⟩ := q
    obtain ⟨hrel, hsymbol, hlt, rfl, hside⟩ := hlink
    have hmem : side ∈ v.left.memory.referenceFields node := by
      rw [symbol_references hsymbol, List.mem_cons, List.mem_singleton]
      exact (Nat.lt_succ_iff_lt_or_eq.mp hside).imp_left Nat.lt_one_iff.mp
    obtain ⟨hm, hm'⟩ := hv.fieldSet hrel (Or.inl hmem) (fun _ => Or.inr h)
      fun hout => absurd hmem hout
    refine ⟨v.withMemory (v.left.memory.setField node side a) (v.right.memory.setField node' side b),
      rfl, rfl, ?_⟩
    generalize v.left.memory.setField node side a = m at hm ⊢
    generalize v.right.memory.setField node' side b = m' at hm' ⊢
    refine ⟨hv.setField hrel hm hm' (fun _ => hmem) (fun _ => ⟨Or.inr h, Or.inr ⟨hv.mem_left h.1, ?_⟩⟩)
      fun hout => absurd hmem hout, ⟨rfl, rfl, rfl⟩, hv.updated_setField hrel.2 hm, .below hp hm,
        rfl⟩
    rw [hsymbol]
    exact ⟨hk, hlt⟩

/-- A name that has no symbol has none after records moved. -/
theorem findSymbol_moved {g : Heap} {kept : Nat → Prop} {place : Nat → Nat} (hs : h.Sound rules)
    (hr : h.Relocation kept place g) (hnone : h.findSymbol name = none) :
    g.findSymbol name = none := by
  have hfind := ((Corr.diagonal hs fun _ => True).moveRight hr).findSymbol name
  change Option.Rel _ (h.findSymbol name) (g.findSymbol name) at hfind
  rw [hnone] at hfind
  generalize g.findSymbol name = q at hfind ⊢
  cases hfind
  rfl

end Corr

namespace Agrees

variable {v : View} {n : Nat}

/-- Once there is room, a name gets its symbol. -/
theorem addSymbol (hv : Corr v) (hn : n ≤ v.left.roots.size) (hmay : v.may (.intern name))
    (hmissing : v.left.findSymbol name = none) (htext : ∃ text : String, name = text.toUTF8.toList)
    (hsize : symbolSize name.length ≤ maxSize)
    (hfit : v.left.top + symbolSize name.length ≤ v.left.capacity)
    (hfit' : v.right.top + symbolSize name.length ≤ v.right.capacity) (digest : Nat) :
    Agrees n v (Made v .symbol)
      (do
        let r ← HeapM.put .symbol (symbolSize name.length) [absent, absent, digest, name.length] name
        HeapM.attachSymbol name r
        return r)
      (do
        let r ← HeapM.put .symbol (symbolSize name.length) [absent, absent, digest, name.length] name
        HeapM.attachSymbol name r
        return r) := by
  have hholds : ∀ k ∈ [0, 1], ∀ x y, [absent, absent, digest, name.length][k]? = some x →
      [absent, absent, digest, name.length][k]? = some y → v.Holds .symbol k x y := by
    intro k hk x y hx hy
    match k, hk with
    | 0, _ | 1, _ =>
      cases hx
      cases hy
      exact Or.inl ⟨rfl, rfl, rfl⟩
  obtain ⟨hl, hr, hmatch⟩ := hv.pushed (.symbol digest name hsize) (.symbol digest name hsize)
    hfit hfit' hholds fun _ _ => rfl
  unfold Agrees
  rw [HeapM.put_bind, HeapM.put_bind]
  have hpushed : v.Single → (v.push (symbolSize name.length)
      (v.left.written .symbol [absent, absent, digest, name.length] name)
      (v.right.written .symbol [absent, absent, digest, name.length] name)).Single := fun hs =>
    hs.push _ (by rw [hs.same])
  generalize v.left.written _ _ _ = m at hl hmatch hpushed ⊢
  generalize v.right.written _ _ _ = m' at hr hmatch hpushed ⊢
  have hbuilt := hv.built m' hl
  obtain ⟨w, hrun, hrun', hw, hterms, hupdated, hhung, hrel⟩ :=
    (hv.push hl hr hmatch).attachSymbol name hbuilt.rel hbuilt.kind_eq hbuilt.fresh
  change Outcome n v _ ((HeapM.attachSymbol name v.left.top >>= fun _ => Pure.pure v.left.top)
      (v.push (symbolSize name.length) m m').left)
    ((HeapM.attachSymbol name v.right.top >>= fun _ => Pure.pure v.right.top)
      (v.push (symbolSize name.length) m m').right)
  rw [HeapM.bind_ok hrun, HeapM.bind_ok hrun']
  refine .ok w hw (.of_change hv hn hw ?_ ⟨hterms.rules, hterms.guard, hterms.may⟩
    (fun hs => (hpushed hs).of_runs hrel hrun hrun' (by rw [hs.same]))
    (.symbol ⟨hmissing, htext, digest, m, hl, hhung⟩ hmay)) ⟨hupdated.rel _ _ hbuilt.rel, ?_, ?_⟩
  · rw [hupdated.roots]
    exact hn
  · rw [hupdated.kind _ ((hv.push hl hr hmatch).mem_left hbuilt.rel.1), hbuilt.kind_eq]
  · rw [hupdated.roots, hbuilt.roots]

theorem internWith (hv : Corr v) (hn : n ≤ v.left.roots.size) (digest : List UInt8 → Nat)
    (name : String) (hmay : v.may (.intern name.toUTF8.toList)) :
    Agrees n v (Made v .symbol) (HeapM.internWith digest name) (HeapM.internWith digest name) := by
  refine get_bind ?_
  have hfind := hv.findSymbol name.toUTF8.toList
  generalize hp : v.left.findSymbol name.toUTF8.toList = p at hfind ⊢
  generalize v.right.findSymbol name.toUTF8.toList = q at hfind ⊢
  cases hfind with
  | some h => exact pure hv hn ⟨h.1, h.2, rfl⟩
  | none =>
    simp only
    have htext : ∃ text : String, name.toUTF8.toList = text.toUTF8.toList := ⟨name, rfl⟩
    generalize name.toUTF8.toList = bytes at hmay hp htext
    refine checkSize_bind hv hn fun hsize => ?_
    rw [HeapM.reserve_bind [absent, absent, digest bytes, bytes.length] bytes]
    rotate_left
    · exact fun _ _ => rfl
    have hkept : ∀ i (hi : i < 0), v.Rel #v[][i] #v[][i] := fun i hi => absurd hi (Nat.not_lt_zero i)
    refine (room hv hn hkept).bind fun w _ _ hw hlater hroom => ?_
    obtain ⟨kept, place, hmoved, -, -⟩ := hroom.moved
    refine (addSymbol hw hlater.size (hlater.may ▸ hmay) (Corr.findSymbol_moved hv.left hmoved hp)
      htext hsize hroom.left hroom.right (digest bytes)).mono (Nat.le_refl _) fun u r s _ _ hmade => ?_
    exact ⟨hmade.rel, hmade.kind_eq, hmade.roots.trans hroom.roots⟩

end Agrees

end ArenaScheme
