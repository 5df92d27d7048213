import ArenaScheme.Proofs.PortraitSteps

/-! Values. Bindings are records as well, but a client never gets hold of one: its handles are values,
and no datum leads from a value to a binding. The names of procedures are symbols. Both hold of every
heap that is made by operations on values. -/

namespace ArenaScheme

open Memory Heap

variable {result : EStateM.Result Fault Heap Ref} {g h : Heap} {kind source : Kind}
  {words : List Nat} {bytes : List UInt8} {m : Memory} {frame k size value : Nat}
  {place : Nat → Nat} {kept : Nat → Prop}

/-- Whether field `k` of a record may lead to a record of the given kind, if data are made of values and
procedures have names. -/
def Kind.Suits (source : Kind) (k : Nat) (target : Kind) : Prop :=
  match source with
  | pair | vector | tagged => target ≠ binding
  | builtin | closure => k = 0 → target = symbol
  | _ => True

theorem Kind.suits_symbol : source.Suits k .symbol := by
  cases source <;> first | trivial | exact fun _ => rfl | exact nofun

namespace Heap

/-- What a client can hold. -/
structure IsValue (h : Heap) (r : Nat) : Prop where
  mem : r ∈ h.records
  kind : h.memory.kind r ≠ .binding

instance (h : Heap) (r : Nat) : Decidable (h.IsValue r) :=
  decidable_of_iff (r ∈ h.records ∧ h.memory.kind r ≠ .binding)
    ⟨fun ⟨hmem, hkind⟩ => ⟨hmem, hkind⟩, fun hr => ⟨hr.mem, hr.kind⟩⟩

/-- A sound heap whose data are made of values and whose procedures have names. -/
structure Proper (h : Heap) : Prop extends Sound Rules.bare h where
  suits : ∀ r ∈ h.records, ∀ k ∈ h.memory.referenceFields r,
    (h.memory.kind r).Suits k (h.memory.kind (h.memory.field r k))
  held : ∀ r ∈ h.roots, h.memory.kind r ≠ .binding

namespace Proper

variable {h g : Heap} {r k t i : Nat}

/-- A field that may lead nowhere suits whatever it leads to. -/
theorem suits_of_mayBeAbsent {target : Kind} (hmay : source.mayBeAbsent k = true) :
    source.Suits k target := by
  cases source <;> trivial

section

variable (ho : h.Proper)
include ho

theorem root (i : Slot) : h.IsValue (h.root i) := by
  by_cases hi : i < h.roots.size
  · exact ⟨ho.wf.root _ (root_mem hi), ho.held _ (root_mem hi)⟩
  · obtain ⟨hmem, hkind, -⟩ := ho.fixture (null, .null) (by decide)
    rw [Heap.root, Array.getElem?_eq_none (Nat.le_of_not_lt hi), Option.getD_none]
    exact ⟨hmem, by rw [hkind]; decide⟩

theorem null : h.IsValue Heap.null := by
  obtain ⟨hmem, hkind, -⟩ := ho.fixture (Heap.null, .null) (by decide)
  exact ⟨hmem, by rw [hkind]; decide⟩

/-- What a datum is made of are values. -/
theorem part (hr : r ∈ h.records) (hkind : h.memory.kind r ∈ [.pair, .vector, .tagged])
    (hk : k ∈ h.memory.referenceFields r) : h.IsValue (h.memory.field r k) := by
  have hsuits := ho.suits r hr k hk
  have hallowed := ho.allowed r hr k hk
  simp only [List.mem_cons, List.not_mem_nil, or_false] at hkind
  unfold Heap.Allowed at hallowed
  rcases hkind with hkind | hkind | hkind <;> rw [hkind] at hsuits hallowed <;>
    exact ⟨(hallowed.resolve_left fun hh => nomatch hh.2).1, hsuits⟩

theorem withRoots (roots : Array Ref) (hroots : ∀ r ∈ roots, h.IsValue r) :
    { h with roots }.Proper where
  toSound := ho.toSound.withRoots roots fun r hr => (hroots r hr).mem
  suits := ho.suits
  held r hr := (hroots r hr).kind

theorem pushRoot (hr : h.IsValue r) :
    { h with roots := h.roots.push r }.Proper := by
  refine ho.withRoots _ fun x hx => ?_
  rcases Array.mem_push.mp hx with hx | rfl
  · exact ⟨ho.wf.root x hx, ho.held x hx⟩
  · exact hr

theorem setRoot (slot : Slot) (hr : h.IsValue r) :
    { h with roots := h.roots.setIfInBounds slot r }.Proper := by
  refine ho.withRoots _ fun x hx => ?_
  rcases Array.mem_or_eq_of_mem_setIfInBounds hx with hx | rfl
  · exact ⟨ho.wf.root x hx, ho.held x hx⟩
  · exact hr

theorem releaseRoots (count : Nat) :
    { h with roots := h.roots.shrink count }.Proper := by
  refine ho.withRoots _ fun x hx => ?_
  have hmem : x ∈ h.roots := by
    obtain ⟨i, hi, rfl⟩ := Array.mem_iff_getElem.mp hx
    rw [Array.getElem_shrink]
    exact Array.getElem_mem _
  exact ⟨ho.wf.root x hmem, ho.held x hmem⟩

/-- A move changes nothing about it. -/
theorem relocate (hr : h.Relocation kept place g) : g.Proper where
  toSound := ho.toSound.relocate hr
  suits := by
    intro s hs k hk
    obtain ⟨p, hp, rfl⟩ := (hr.records s).mp hs
    have hm := hr.record p hp
    rw [hm.referenceFields] at hk
    rw [hm.kind]
    rcases hm.reference k hk with ⟨habs, -⟩ | ⟨hq, heq⟩
    · refine suits_of_mayBeAbsent ?_
      rcases ho.allowed p (hr.mem p hp) k hk with ⟨-, hmay⟩ | ⟨hmem, -⟩
      · exact hmay
      · exact absurd habs (ho.wf.ne_absent hmem)
    · rw [← heq, (hr.record _ hq).kind]
      exact ho.suits p (hr.mem p hp) k hk
  held := by
    intro s hs
    rw [hr.roots, Array.mem_map] at hs
    obtain ⟨p, hp, rfl⟩ := hs
    rw [(hr.record p (hr.root p hp)).kind]
    exact ho.held p hp

/-- A record may be added whose fields suit it. -/
theorem push (hm : h.Pushed Rules.bare kind words bytes size m)
    (hsuits : ∀ i ∈ m.referenceFields h.top, kind.Suits i (h.memory.kind (m.field h.top i))) :
    { h with memory := m, top := h.top + size }.Proper where
  toSound := hm.sound ho.toSound
  suits := by
    intro r hr i hi
    rw [hm.records ho.wf] at hr
    rcases List.mem_append.mp hr with hr | hr
    · have hbody := hm.sameBody ho.wf hr
      have hold := ho.suits r hr
      rw [hbody.referenceFields] at hi
      rw [hbody.kind, hbody.reference hi]
      rcases ho.allowed r hr i hi with ⟨-, hmay⟩ | ⟨hmem, -⟩
      · exact suits_of_mayBeAbsent hmay
      · rw [(hm.sameBody ho.wf hmem).kind]
        exact hold i hi
    · obtain rfl := List.mem_singleton.mp hr
      rw [hm.written.kind]
      rcases hm.allowed i hi with ⟨-, hmay⟩ | ⟨hmem, -⟩
      · exact suits_of_mayBeAbsent hmay
      · rw [(hm.sameBody ho.wf hmem).kind]
        exact hsuits i hi
  held r hr := by
    rw [(hm.sameBody ho.wf (ho.wf.root r hr)).kind]
    exact ho.held r hr

/-- A field may take another value that suits it. -/
theorem setField (hm : FieldSet h.records h.memory r k t m)
    (hg : { h with memory := m }.Sound Rules.bare)
    (hsuits : k ∈ h.memory.referenceFields r → t ∈ h.records ∧
      (h.memory.kind r).Suits k (h.memory.kind t)) : { h with memory := m }.Proper where
  toSound := hg
  suits := by
    intro q hq i hi
    rw [ho.records_setField hm] at hq
    rw [hm.references q hq] at hi
    rw [hm.kind hq]
    by_cases hin : q = r ∧ i = k
    · obtain ⟨rfl, rfl⟩ := hin
      obtain ⟨hmem, hfits⟩ := hsuits hi
      rw [hm.self, hm.kind hmem]
      exact hfits
    · rw [hm.field hq (fun hqr hik => hin ⟨hqr, hik⟩) (field_end_le_extent hi)]
      rcases ho.allowed q hq i hi with ⟨-, hmay⟩ | ⟨hmem, -⟩
      · exact suits_of_mayBeAbsent hmay
      · rw [hm.kind hmem]
        exact ho.suits q hq i hi
  held r hr := by
    rw [hm.kind (ho.wf.root r hr)]
    exact ho.held r hr

/-- Bindings may be added and changed. -/
theorem keep (hkeeps : KeepsItems h g) (hg : g.Sound Rules.bare) (hroots : g.roots = h.roots)
    (hnew : ∀ r ∈ g.records, r ∈ h.records ∨ (g.memory.kind r).inTrees = true) : g.Proper where
  toSound := hg
  suits := by
    intro r hr k hk
    cases htree : (g.memory.kind r).inTrees with
    | true =>
      revert htree
      cases g.memory.kind r <;> first | exact fun _ => trivial | exact fun hh => nomatch hh
    | false =>
      have hold := (hnew r hr).resolve_right (by rw [htree]; decide)
      rw [hkeeps.kind r hold] at htree ⊢
      have hsame := hkeeps.same r hold htree
      rw [hsame.referenceFields] at hk
      rw [hsame.reference_eq hk]
      rcases ho.allowed r hold k hk with ⟨-, hmay⟩ | ⟨hmem, -⟩
      · exact suits_of_mayBeAbsent hmay
      · rw [hkeeps.kind _ hmem]
        exact ho.suits r hold k hk
  held r hr := by
    rw [hroots] at hr
    rw [hkeeps.kind r (ho.wf.root r hr)]
    exact ho.held r hr

end

end Proper

/-! Computations that keep a heap proper. -/

/-- The slots of `h` are there in `g`, with values of the same kinds. -/
structure SameSlots (h g : Heap) : Prop where
  size : g.roots.size = h.roots.size
  kind : ∀ i < h.roots.size, g.memory.kind (g.root i) = h.memory.kind (h.root i)

theorem SameSlots.refl (h : Heap) : SameSlots h h := ⟨rfl, fun _ _ => rfl⟩

theorem SameSlots.trans {k : Heap} (hk : SameSlots h k) (hg : SameSlots k g) : SameSlots h g :=
  ⟨hg.size.trans hk.size, fun i hi => (hg.kind i (hk.size ▸ hi)).trans (hk.kind i hi)⟩

theorem Relocation.sameSlots (hr : h.Relocation kept place g) : SameSlots h g where
  size := by rw [hr.roots, Array.size_map]
  kind i hi := by rw [hr.root_eq hi, (hr.record _ (hr.root _ (root_mem hi))).kind]

theorem KeepsItems.sameSlots (hkeeps : KeepsItems h g) (hs : h.Sound Rules.bare)
    (hroots : g.roots = h.roots) : SameSlots h g where
  size := by rw [hroots]
  kind i hi := by
    rw [Heap.root, hroots]
    exact hkeeps.kind _ (hs.wf.root _ (root_mem hi))

/-- A computation leaves an proper heap, and its result is as `post` says. -/
def Tends {α : Type} (post : α → Heap → Prop) : EStateM.Result Fault Heap α → Prop
  | .ok a g => g.Proper ∧ post a g
  | .error _ g => g.Proper

namespace Tends

variable {h : Heap} {α β : Type} {post : α → Heap → Prop} {last : β → Heap → Prop}

theorem bind {x : HeapM α} {f : α → HeapM β} (hx : Tends post (x h))
    (hf : ∀ a g, g.Proper → post a g → Tends last (f a g)) : Tends last ((x >>= f) h) := by
  cases hrun : x h with
  | ok a g =>
    rw [hrun] at hx
    rw [HeapM.bind_ok hrun]
    exact hf a g hx.1 hx.2
  | error fault g =>
    rw [hrun] at hx
    rw [HeapM.bind_error hrun]
    exact hx

theorem query_bind {question : Heap → Except Fault α} {f : α → HeapM β} (ho : h.Proper)
    (hf : ∀ a, question h = .ok a → Tends last (f a h)) :
    Tends last ((HeapM.query question >>= f) h) := by
  rw [HeapM.query_bind]
  cases hq : question h with
  | ok a => exact hf a hq
  | error fault => exact ho

theorem mono {x : EStateM.Result Fault Heap α} (hx : Tends post x) {post' : α → Heap → Prop}
    (himp : ∀ a g, post a g → post' a g) : Tends post' x := by
  cases x with
  | ok a g => exact ⟨hx.1, himp a g hx.2⟩
  | error fault g => exact hx

theorem after {x : HeapM α} (hx : Tends post (x h)) : (h.after x).Proper := by
  unfold Heap.after
  cases hrun : x h with
  | ok a g =>
    rw [hrun] at hx
    exact hx.1
  | error fault g =>
    rw [hrun] at hx
    exact hx

end Tends

/-- What a constructor gives. -/
structure Newest (h : Heap) (kind : Kind) (r : Ref) (g : Heap) : Prop where
  slots : SameSlots h g
  mem : r ∈ g.records
  kind_eq : g.memory.kind r = kind

theorem Newest.isValue {r : Ref} (hn : Newest h kind r g) (hkind : kind ≠ .binding) : g.IsValue r :=
  ⟨hn.mem, hn.kind_eq ▸ hkind⟩

theorem Makes.tends {refs : List Nat} {words : (Nat → Nat) → List Nat}
    (hm : h.Makes Rules.bare refs kind words bytes size result) (ho : h.Proper)
    (hsuits : ∀ {kept place k m}, h.Relocation kept place k → (∀ r ∈ refs, kept r) →
      k.Pushed Rules.bare kind (words place) bytes size m →
      ∀ i ∈ m.referenceFields k.top, kind.Suits i (k.memory.kind (m.field k.top i))) :
    Tends (Newest h kind) result := by
  cases hm with
  | @ok kept place k m hr hkept hm =>
    have hk := ho.relocate hr
    refine ⟨hk.push hm (hsuits hr hkept hm), hr.sameSlots.trans ⟨rfl, fun i hi => ?_⟩, ?_,
      hm.written.kind⟩
    · exact (hm.sameBody hk.wf (hk.wf.root _ (root_mem hi))).kind
    · rw [hm.records hk.wf]
      simp
  | exhausted hr _ => exact ho.relocate hr

/-- Where the reference `r` stands in field `i` of the new record. -/
theorem Pushed.kind_field {k : Heap} {i r : Nat} (hm : k.Pushed Rules.bare kind words bytes size m)
    (hr : h.Relocation kept place k) (hword : words[i]? = some (place r)) (hkept : kept r) :
    k.memory.kind (m.field k.top i) = h.memory.kind r := by
  have hlt := Nat.lt_trans (hr.wellFormed.lt_top (hr.mem_records hkept)) hr.wellFormed.top_lt
  rw [hm.written.word hword hlt, (hr.record r hkept).kind]

end Heap

namespace HeapM

variable {h : Heap} {a b : Nat}

/-- A record of two values. -/
theorem tends_two
    (hm : h.Makes Rules.bare [a, b] kind (fun place => [place a, place b]) [] size result)
    (hkind : kind = .pair ∨ kind = .tagged) (ho : h.Proper) (ha : h.IsValue a) (hb : h.IsValue b) :
    Tends (Newest h kind) result := by
  refine hm.tends ho fun {_ _ k m} hr hkept hm i hi => ?_
  have hfields : m.referenceFields k.top = [0, 1] := by
    rcases hkind with rfl | rfl <;> simp only [referenceFields, hm.written.kind]
  have hsuits : k.memory.kind (m.field k.top i) ≠ .binding := by
    simp only [hfields, List.mem_cons, List.not_mem_nil, or_false] at hi
    rcases hi with rfl | rfl
    · rw [hm.kind_field hr rfl (hkept a (by simp))]
      exact ha.kind
    · rw [hm.kind_field hr rfl (hkept b (by simp))]
      exact hb.kind
  rcases hkind with rfl | rfl <;> exact hsuits

section

variable (ho : h.Proper)
include ho

theorem tends_cons (ha : h.IsValue a) (hb : h.IsValue b) :
    Tends (Newest h .pair) (cons a b h) :=
  tends_two (makes_cons ho.toSound ha.mem hb.mem) (Or.inl rfl) ho ha hb

theorem tends_tagged (ha : h.IsValue a) (hb : h.IsValue b) :
    Tends (Newest h .tagged) (tagged a b h) :=
  tends_two (makes_tagged ho.toSound ha.mem hb.mem) (Or.inr rfl) ho ha hb

theorem tends_builtin (ha : a ∈ h.records) (hname : h.memory.kind a = .symbol) (index : Nat) :
    Tends (Newest h .builtin) (builtin a index h) := by
  refine (makes_builtin ho.toSound ha index).tends ho fun hr hkept hm i hi => ?_
  rintro rfl
  rw [hm.kind_field hr rfl (hkept a (by simp)), hname]

theorem tends_closure {c : Closure}
    (hrefs : ∀ r ∈ [c.name, c.formals, c.env, c.body], r ∈ h.records)
    (hname : h.memory.kind c.name = .symbol) :
    Tends (Newest h .closure) (closure c.name c.formals c.env c.body c.arity c.rest h) := by
  refine (makes_closure ho.toSound hrefs nofun).tends ho fun hr hkept hm i hi => ?_
  rintro rfl
  rw [hm.kind_field hr rfl (hkept c.name (by simp)), hname]

theorem tends_environment {outer : Option Ref}
    (houter : ∀ r ∈ outer, r ∈ h.records ∧ h.memory.kind r = .environment) :
    Tends (Newest h .environment) (environment outer h) :=
  (makes_environment ho.toSound houter).tends ho fun _ _ _ _ _ => trivial

theorem tends_string (text : String) :
    Tends (Newest h .string) (string text h) := by
  by_cases hsize : maxSize < sequenceSize text.toList.length
  · rw [string, checkSize_large (by rw [List.length_map]; exact hsize)]
    exact ho
  · exact (makes_string ho.toSound text (Nat.le_of_not_lt hsize)).tends ho fun _ _ _ _ _ => trivial

theorem tends_makeString (length : Nat) (fill : Char) :
    Tends (Newest h .string) (makeString length fill h) := by
  by_cases hsize : maxSize < sequenceSize length
  · rw [makeString, checkSize_large hsize]
    exact ho
  · exact (makes_makeString ho.toSound length fill (Nat.le_of_not_lt hsize)).tends ho
      fun _ _ _ _ _ => trivial

theorem tends_makeVector (length : Nat) (ha : h.IsValue a) :
    Tends (Newest h .vector) (makeVector length a h) := by
  by_cases hsize : maxSize < sequenceSize length
  · rw [makeVector, checkSize_large hsize]
    exact ho
  refine (makes_makeVector ho.toSound length ha.mem (Nat.le_of_not_lt hsize)).tends ho
    fun {_ _ k m} hr hkept hm i hi => ?_
  have hlength : m.field k.top 0 = length :=
    hm.written.word rfl (length_lt_of_size (Nat.le_of_not_lt hsize))
  simp only [referenceFields, hm.written.kind, hlength, List.mem_range'_1] at hi
  obtain ⟨j, rfl⟩ : ∃ j, i = j + 1 := ⟨i - 1, by omega⟩
  change k.memory.kind _ ≠ _
  rw [hm.kind_field hr (r := a) ?_ (hkept a (by simp))]
  · exact ha.kind
  · rw [List.getElem?_cons_succ, List.getElem?_replicate, if_pos (by omega)]

theorem tends_vectorFromRoots (base : Nat) :
    Tends (fun r g => g.IsValue r) (vectorFromRoots base h) := by
  have hgathers := gathers ho.toSound base
  generalize vectorFromRoots base h = result at hgathers
  cases hgathers with
  | @ok kept place k m hr hm =>
    have hk := ho.relocate hr
    have hend := hm.fit
    have hlength : m.field k.top 0 = h.roots.size - base := by
      refine hm.written.word rfl (length_lt_of_size ?_)
      exact Nat.le_trans (Nat.le_trans (Nat.le_add_left _ _) hend) hk.wf.capacity_le
    have hpushed := hk.push hm fun i hi => by
      simp only [referenceFields, hm.written.kind, hlength, List.mem_range'_1] at hi
      obtain ⟨j, rfl⟩ : ∃ j, i = j + 1 := ⟨i - 1, by omega⟩
      have hsize : k.roots.size = h.roots.size := by rw [hr.roots, Array.size_map]
      have hlt : base + j < k.roots.size := by omega
      have hmem := root_mem hlt
      have hword : m.field k.top (j + 1) = k.root (base + j) := by
        refine hm.written.word ?_ (Nat.lt_trans (hk.wf.lt_top (hk.wf.root _ hmem)) hk.wf.top_lt)
        rw [List.getElem?_cons_succ, Array.getElem?_toList, Array.getElem?_extract, if_pos (by omega),
          Heap.root, Array.getElem?_eq_getElem hlt]
        rfl
      change k.memory.kind _ ≠ _
      rw [hword]
      exact hk.held _ hmem
    refine ⟨hpushed.releaseRoots base, ?_, ?_⟩
    · change k.top ∈ Heap.records { k with memory := m, top := k.top + _ }
      rw [hm.records hk.wf]
      simp
    · change m.kind k.top ≠ _
      rw [hm.written.kind]
      decide
  | tooLarge _ => exact ho
  | exhausted hr _ => exact ho.relocate hr

/-- The value of a slot goes in front of the list each time. -/
theorem tends_listOnto (start count : Nat) (ha : h.IsValue a) :
    Tends (fun r g => g.IsValue r ∧ SameSlots h g) (listOnto start count a h) := by
  induction count generalizing h a with
  | zero => exact ⟨ho, ha, .refl h⟩
  | succ count ih =>
    rw [listOnto, root_bind]
    refine (tends_cons ho (ho.root _) ha).bind fun r g hg hnew => ?_
    exact (ih hg (hnew.isValue (by decide))).mono fun _ _ hlast =>
      ⟨hlast.1, hnew.slots.trans hlast.2⟩

theorem tends_putBinding {symbol : Nat} (hframe : frame ∈ h.records)
    (hk : h.memory.kind frame = .environment) (hsymbol : symbol ∈ h.records)
    (hbindable : h.Bindable symbol) (hvalue : value ∈ h.records) :
    Tends (fun _ g => SameSlots h g) (putBinding frame symbol value h) := by
  have hbinds := binds ho.toSound hframe hk (fun heq => nomatch heq) hsymbol (fun _ => hbindable)
    hvalue
  generalize putBinding frame symbol value h = result at hbinds
  cases hbinds with
  | updated _ hb hkind hm hg =>
    refine ⟨ho.setField hm hg fun _ => ⟨hvalue, by rw [hkind]; trivial⟩, rfl, fun i hi => ?_⟩
    exact hm.kind (ho.wf.root _ (root_mem hi))
  | @added kept place k g hr _ hadded hg =>
    have hk := ho.relocate hr
    have hkeeps := hadded.keepsItems hk.toSound
    refine ⟨hk.keep hkeeps hg hadded.roots_eq fun r hmem => ?_,
      hr.sameSlots.trans (hkeeps.sameSlots hk.toSound hadded.roots_eq)⟩
    obtain ⟨m, hm, ⟨_, hset⟩⟩ := hadded.added
    rw [(hm.sound hk.toSound).records_setField hset, hm.records hk.wf, List.mem_append,
      List.mem_singleton] at hmem
    refine hmem.imp_right ?_
    rintro rfl
    rw [hset.kind (by rw [hm.records hk.wf]; simp), hm.written.kind]
    rfl
  | exhausted hr _ => exact ho.relocate hr

theorem tends_define {symbol : Nat} (hframe : frame ∈ h.records) (hsymbol : symbol ∈ h.records)
    (hvalue : value ∈ h.records) :
    Tends (fun _ g => SameSlots h g) (define frame symbol value h) := by
  rw [define_run]
  cases hname : h.symbolName symbol with
  | error fault => exact ho
  | ok name =>
    obtain ⟨hk, rfl⟩ := symbolName_eq_ok_iff.mp hname
    simp only
    by_cases hreserved : isReserved (Text.decode (h.nameBytes symbol)) = true
    · rw [if_pos hreserved]
      exact ho
    rw [if_neg hreserved]
    cases hexpect : h.expectFrame frame with
    | error fault => exact ho
    | ok _ =>
      exact tends_putBinding ho hframe (expectKind_eq_ok hexpect) hsymbol
        ⟨hk, Bool.eq_false_iff.mpr hreserved⟩ hvalue

/-- What is read from a pair is a value. -/
theorem isValue_of_pair (ha : a ∈ h.records) (hk : k ∈ [0, 1])
    (hread : (do h.expectKind .pair "pair" a return h.field a k : Except Fault Ref) = .ok b) :
    h.IsValue b := by
  cases hpair : h.expectKind .pair "pair" a with
  | error fault =>
    rw [hpair] at hread
    cases hread
  | ok _ =>
    rw [hpair] at hread
    cases hread
    have hkind := expectKind_eq_ok hpair
    exact ho.part ha (by rw [hkind]; decide) (by rw [pair_references hkind]; exact hk)

end

theorem tends_bindFormals (args fixed cursor surplus frame : Nat) (ho : h.Proper)
    (count i : Nat) :
    Tends (fun _ _ => True) (bindFormals args fixed cursor surplus frame count i h) := by
  induction count generalizing h i with
  | zero => exact ⟨ho, trivial⟩
  | succ count ih =>
    rw [bindFormals, root_bind]
    refine .query_bind ho fun name hname => ?_
    rw [root_bind, root_bind]
    have hcar := isValue_of_pair ho (ho.root cursor).mem (by decide) hname
    refine (tends_define ho (ho.root frame).mem hcar.mem (ho.root _).mem).bind fun _ g hg _ => ?_
    rw [root_bind]
    refine .query_bind hg fun next hnext => ?_
    have hcdr := isValue_of_pair hg (hg.root cursor).mem (by decide) hnext
    rw [setRoot_bind]
    exact ih (hg.setRoot cursor hcdr) (i + 1)

theorem tends_extend {parent formals : Nat} (ho : h.Proper) (hparent : h.IsValue parent)
    (hframe : h.memory.kind parent = .environment) (hformals : h.IsValue formals) (arity : Nat)
    (rest : Bool) (args : Slot) :
    Tends (fun _ _ => True) (extend parent formals arity rest args h) := by
  rw [extend_run]
  cases fixedParameters arity rest (h.roots.size - args) with
  | error fault => exact ho
  | ok fixed =>
    have hpushed : { h with roots := (h.roots.push parent).push formals }.Proper :=
      (ho.pushRoot hparent).pushRoot ⟨hformals.mem, hformals.kind⟩
    generalize hk : { h with roots := (h.roots.push parent).push formals } = k at hpushed ⊢
    have hslot : k.roots.size = h.roots.size + 2 ∧ k.root h.roots.size = parent := by
      subst hk
      refine ⟨by simp, ?_⟩
      rw [Heap.root, Array.getElem?_push_lt (by simp), Array.getElem_push_eq, Option.getD_some]
    have hsurplus : Tends (fun r g => g.IsValue r ∧ SameSlots k g)
        ((if rest then listOnto (args + fixed) (h.roots.size - args - fixed) Heap.null
          else pure Heap.null) k) := by
      cases rest with
      | false => exact ⟨hpushed, hpushed.null, .refl k⟩
      | true => exact tends_listOnto hpushed _ _ hpushed.null
    refine hsurplus.bind fun list g hg hlist => ?_
    rw [pushRoot_bind, root_bind]
    have hg' := hg.pushRoot hlist.1
    -- the parent is still a frame, wherever it is now
    have hroot : { g with roots := g.roots.push list }.root h.roots.size = g.root h.roots.size := by
      have hlt : h.roots.size < g.roots.size := by rw [hlist.2.size, hslot.1]; omega
      simp only [Heap.root, Array.getElem?_push, if_neg (Nat.ne_of_lt hlt)]
    have henv : g.memory.kind (g.root h.roots.size) = .environment := by
      rw [hlist.2.kind _ (by rw [hslot.1]; omega), hslot.2, ← hk]
      exact hframe
    refine (tends_environment hg' ?_).bind fun frame f hf hnew => ?_
    · rintro r ⟨⟩
      rw [hroot]
      exact ⟨(hg.root _).mem, henv⟩
    · rw [pushRoot_bind]
      refine (tends_bindFormals _ _ _ _ _ (hf.pushRoot (hnew.isValue (by decide))) _ _).bind
        fun _ z hz _ => ?_
      rw [root_bind, releaseRoots_bind]
      exact ⟨hz.releaseRoots _, trivial⟩

theorem tends_intern (ho : h.Proper) (name : String) :
    Tends (fun _ _ => True) (intern name h) := by
  have hinterns := interns ho.toSound Text.digest name
  change h.Interns Rules.bare name.toUTF8.toList (intern name h) at hinterns
  generalize intern name h = result at hinterns
  cases hinterns with
  | found _ => exact ⟨ho, trivial⟩
  | @added kept place k g _ hr hadded hg =>
    have hk := ho.relocate hr
    obtain ⟨digest, m, hm, hhung⟩ := hadded.added
    have hpushed := hk.push hm fun _ _ => trivial
    refine ⟨?_, trivial⟩
    cases hhung with
    | first _ => exact ⟨hg, hpushed.suits, hpushed.held⟩
    | below _ hset =>
      refine hpushed.setField hset hg fun _ => ⟨by rw [hm.records hk.wf]; simp, ?_⟩
      rw [show Heap.memory { k with memory := m, top := _ } = m from rfl, hm.written.kind]
      exact Kind.suits_symbol
  | tooLarge _ _ => exact ho
  | exhausted _ _ _ hr => exact ho.relocate hr

/-- Data that can change may get other values. -/
theorem tends_setField (ho : h.Proper) (ha : a ∈ h.records)
    (hkind : h.memory.kind a ∈ [.pair, .vector, .string]) (hk : h.memory.Settable a k)
    (hlt : b < 4294967296) (hb : k ∈ h.memory.referenceFields a → h.IsValue b) :
    Tends (fun _ _ => True) (setField a k b h) := by
  have hset := fieldSet_setField ho.wf.tiled ho.wf.top_le ha hk hlt
  simp only [List.mem_cons, List.not_mem_nil, or_false] at hkind
  refine ⟨ho.setField hset (ho.toSound.setField hset fun hmem => ?_) fun hmem => ?_, trivial⟩
  · refine Or.inr ⟨(hb hmem).mem, ?_⟩
    rcases hkind with hkind | hkind | hkind <;> rw [hkind] <;> trivial
  · refine ⟨(hb hmem).mem, ?_⟩
    rcases hkind with hkind | hkind | hkind <;> rw [hkind]
    · exact (hb hmem).kind
    · exact (hb hmem).kind
    · trivial

theorem tends_setPair (ho : h.Proper) (ha : a ∈ h.records) (hb : h.IsValue b) (hk : k ∈ [0, 1]) :
    Tends (fun _ _ => True) ((do
      query (·.expectKind .pair "pair" a)
      setField a k b : HeapM Unit) h) := by
  refine .query_bind ho fun _ hpair => ?_
  have hkind := expectKind_eq_ok hpair
  exact tends_setField ho ha (by rw [hkind]; decide) (Or.inl (by rw [pair_references hkind]; exact hk))
    (Nat.lt_trans (ho.wf.lt_top hb.mem) ho.wf.top_lt) fun _ => hb

theorem tends_setElement {expected : String} (index : Int) (ho : h.Proper) (ha : a ∈ h.records)
    (hkind : kind = .vector ∨ kind = .string) (hlt : b < 4294967296)
    (hb : kind = .vector → h.IsValue b) :
    Tends (fun _ _ => True) ((do
      let length ← query fun h => do
        h.expectKind kind expected a
        return h.field a 0
      let i ← query fun _ => checkedIndex length index
      setField a (1 + i) b : HeapM Unit) h) := by
  refine .query_bind ho fun length hlength => .query_bind ho fun i hi => ?_
  obtain ⟨-, hi'⟩ := checkedIndex_eq_ok hi
  cases hexpect : h.expectKind kind expected a with
  | error fault =>
    rw [hexpect] at hlength
    cases hlength
  | ok _ =>
    rw [hexpect] at hlength
    cases hlength
    have hk := expectKind_eq_ok hexpect
    simp only [Heap.field] at hi'
    rcases hkind with rfl | rfl
    · refine tends_setField ho ha (by rw [hk]; decide) (Or.inl ?_) hlt fun _ => hb rfl
      simp only [referenceFields, hk, List.mem_range'_1]
      omega
    · refine tends_setField ho ha (by rw [hk]; decide) (Or.inr ⟨hk, by omega, by omega⟩) hlt
        fun hmem => ?_
      simp only [referenceFields, hk, List.not_mem_nil] at hmem

theorem tends_assign {symbol : Nat} (ho : h.Proper) (hframe : frame ∈ h.records)
    (hsymbol : symbol ∈ h.records) (hvalue : value ∈ h.records) :
    Tends (fun _ _ => True) (assign frame symbol value h) := by
  refine .query_bind ho fun node hnode => ?_
  have hfound := (Corr.diagonal ho.toSound fun _ => True).findVisible
    (Or.inr View.single_diagonal) (View.diagonal_rel hframe) (View.diagonal_rel hsymbol)
  change Answers _ (h.findVisible frame symbol) (h.findVisible frame symbol) at hfound
  rw [hnode] at hfound
  cases hfound with
  | ok hrel =>
    have hkind : h.memory.kind node = .binding := hrel.2
    obtain ⟨m, hrun, hset, hg⟩ := ho.toSound.setBinding hrel.1.1.1 hkind hvalue
    rw [hrun]
    exact ⟨ho.setField hset hg fun _ => ⟨hvalue, by rw [hkind]; trivial⟩, trivial⟩

theorem tends_collect (ho : h.Proper) : Tends (fun _ _ => True) (collect h) := by
  obtain ⟨g, place, hrun, hr, -⟩ := exists_collected ho.wf
  rw [hrun]
  exact ⟨ho.relocate hr, trivial⟩

end HeapM

/-! Operations on values. -/

namespace HeapOp

/-- The references that name procedures. -/
def names : HeapOp → List Ref
  | builtin name _ | closure name .. => [name]
  | _ => []

/-- A valid operation on values that names procedures by symbols. -/
structure Sensible (h : Heap) (op : HeapOp) : Prop extends Valid h op where
  values : ∀ r ∈ op.refs, h.memory.kind r ≠ .binding
  names : ∀ r ∈ op.names, h.memory.kind r = .symbol

instance (h : Heap) (op : HeapOp) : Decidable (op.Sensible h) :=
  decidable_of_iff (op.Valid h ∧ (∀ r ∈ op.refs, h.memory.kind r ≠ .binding) ∧
      ∀ r ∈ op.names, h.memory.kind r = .symbol)
    ⟨fun ⟨hvalid, hvalues, hnames⟩ => ⟨hvalid, hvalues, hnames⟩,
      fun hop => ⟨hop.toValid, hop.values, hop.names⟩⟩

/-- Sensible operations keep a heap proper. -/
theorem proper {op : HeapOp} (ho : h.Proper) (hop : op.Sensible h) : (op.apply h).Proper := by
  have hvalue : ∀ r ∈ op.refs, h.IsValue r := fun r hr => ⟨hop.refs r hr, hop.values r hr⟩
  have first : ∀ {a rest}, op.refs = a :: rest → h.IsValue a := fun heq => hvalue _ (heq ▸ .head _)
  have second : ∀ {a b rest}, op.refs = a :: b :: rest → h.IsValue b := fun heq =>
    hvalue _ (heq ▸ .tail _ (.head _))
  have third : ∀ {a b c rest}, op.refs = a :: b :: c :: rest → h.IsValue c := fun heq =>
    hvalue _ (heq ▸ .tail _ (.tail _ (.head _)))
  have hlt : ∀ {r : Nat}, h.IsValue r → r < 4294967296 := fun hr =>
    Nat.lt_trans (ho.wf.lt_top hr.mem) ho.wf.top_lt
  cases op with
  | integer value => exact ((HeapM.makes_integer ho.toSound value).tends ho fun _ _ _ _ _ => trivial).after
  | float bits => exact ((HeapM.makes_float ho.toSound bits).tends ho fun _ _ _ _ _ => trivial).after
  | character c => exact ((HeapM.makes_character ho.toSound c).tends ho fun _ _ _ _ _ => trivial).after
  | cons a b => exact (HeapM.tends_cons ho (first rfl) (second rfl)).after
  | string text => exact (HeapM.tends_string ho text).after
  | makeString length fill => exact (HeapM.tends_makeString ho length fill).after
  | makeVector length fill => exact (HeapM.tends_makeVector ho length (first rfl)).after
  | builtin name index =>
    exact (HeapM.tends_builtin ho (first rfl).mem (hop.names name (.head _)) index).after
  | closure name formals env body arity rest =>
    exact (HeapM.tends_closure (c := ⟨name, formals, env, body, arity, rest⟩) ho
      (fun r hr => hop.refs r hr) (hop.names name (.head _))).after
  | environment outer =>
    exact (HeapM.tends_environment ho fun r hr => ⟨hop.refs r (Option.mem_toList.mpr hr),
      hop.frames r (Option.mem_toList.mpr hr)⟩).after
  | tagged a b => exact (HeapM.tends_tagged ho (first rfl) (second rfl)).after
  | intern name => exact (HeapM.tends_intern ho name).after
  | define frame symbol value =>
    exact (HeapM.tends_define ho (first rfl).mem (second rfl).mem (third rfl).mem).after
  | assign frame symbol value =>
    exact (HeapM.tends_assign ho (first rfl).mem (second rfl).mem (third rfl).mem).after
  | extend parent formals arity rest args =>
    exact (HeapM.tends_extend ho (first rfl) (hop.frames parent (.head _)) (second rfl) arity rest
      args).after
  | setCar pair value => exact (HeapM.tends_setPair ho (first rfl).mem (second rfl) (by decide)).after
  | setCdr pair value => exact (HeapM.tends_setPair ho (first rfl).mem (second rfl) (by decide)).after
  | stringSet text index c =>
    exact (HeapM.tends_setElement index ho (first rfl).mem (Or.inr rfl) (HeapM.char_lt c) nofun).after
  | vectorSet vector index value =>
    exact (HeapM.tends_setElement index ho (first rfl).mem (Or.inl rfl) (hlt (second rfl))
      fun _ => second rfl).after
  | pushRoot value => exact ho.pushRoot (first rfl)
  | setRoot slot value => exact ho.setRoot slot (first rfl)
  | releaseRoots count => exact ho.releaseRoots count
  | listFromRoots base tail =>
    have hlist : Tends (fun _ _ => True) (HeapM.listFromRoots base tail h) :=
      (HeapM.tends_listOnto ho base _ (first rfl)).bind fun r g hg _ =>
        ⟨hg.releaseRoots base, trivial⟩
    exact hlist.after
  | vectorFromRoots base => exact (HeapM.tends_vectorFromRoots ho base).after
  | collect => exact (HeapM.tends_collect ho).after

end HeapOp

/-- The heaps that sensible operations lead to. A heap may pin what is made, from the start on and as
long as it likes. -/
inductive Attained (size : UInt32) : Heap → Prop
  | start : Attained size (Heap.new size.toNat)
  | step {h : Heap} {op : HeapOp} : Attained size h → op.Sensible h → Attained size (op.apply h)
  | pin {h : Heap} {pinning : Bool} : Attained size h →
    (pinning = true → ∀ r ∈ h.records, h.memory.isPinned r = true) → Attained size { h with pinning }

/-- A new heap holds nothing but values without parts. -/
theorem Heap.Proper.new {capacity : Nat} (hcapacity : capacity ≤ maxSize) :
    (Heap.new capacity).Proper := by
  have hfields : ∀ r ∈ (Heap.new capacity).records,
      (Heap.new capacity).memory.referenceFields r = [] := by
    intro r hr
    obtain ⟨p, hp, rfl⟩ := mem_records_new hr
    exact (extent_of_fixture hp (kind_new capacity hp)).2
  have hroots : (Heap.new capacity).roots = #[] := rfl
  have hsound := Heap.Sound.new hcapacity Rules.bare
  generalize Heap.new capacity = h at *
  refine ⟨hsound, fun r hr k hk => ?_, fun r hr => ?_⟩
  · rw [hfields r hr] at hk
    exact absurd hk List.not_mem_nil
  · rw [hroots] at hr
    exact absurd hr (Array.not_mem_empty r)

theorem Attained.proper {size : UInt32} (hr : Attained size h) : h.Proper := by
  induction hr with
  | start => exact .new (Nat.le_of_lt_succ size.toNat_lt)
  | step _ hop ih => exact HeapOp.proper ih hop
  | pin _ hall ih => exact ⟨ih.toSound.withPinning _ hall, ih.suits, ih.held⟩

/-- Whether each operation is sensible when its turn comes. -/
def HeapOp.SensibleRun : Heap → List HeapOp → Prop
  | _, [] => True
  | h, op :: ops => op.Sensible h ∧ SensibleRun (op.apply h) ops

instance HeapOp.decidableSensibleRun :
    (h : Heap) → (ops : List HeapOp) → Decidable (SensibleRun h ops)
  | _, [] => .isTrue trivial
  | h, op :: ops =>
    haveI := decidableSensibleRun (op.apply h) ops
    inferInstanceAs (Decidable (op.Sensible h ∧ SensibleRun (op.apply h) ops))

theorem Attained.foldl {size : UInt32} {ops : List HeapOp} (hr : Attained size h)
    (hops : HeapOp.SensibleRun h ops) : Attained size (ops.foldl HeapOp.apply h) := by
  induction ops generalizing h with
  | nil => exact hr
  | cons op ops ih => exact ih (hr.step hops.1) hops.2

end ArenaScheme
