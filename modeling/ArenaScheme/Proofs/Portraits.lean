import ArenaScheme.Proofs.ReservedNames
import ArenaScheme.Proofs.ReadBack
import ArenaScheme.Proofs.Scenes

/-! Every machine shows a world. Its things are the records of the heap, numbered in the order in which
they stand. -/

namespace ArenaScheme

open Memory Heap

/-- The thing that the contents of a record make, once its references have numbers. -/
def Content.item (number : Ref → Nat) : Content → Item
  | integer value => .integer value
  | float bits => .float bits
  | symbol _ _ _ name => .symbol (Text.decode name)
  | pair car cdr => .pair (number car) (number cdr)
  | string codes => .string (codes.map charOfCode)
  | boolean true => .singleton .truth
  | boolean false => .singleton .falsity
  | char code => .char (charOfCode code)
  | null => .singleton .null
  | eof => .singleton .eof
  | vector elements => .vector (elements.map number)
  | builtin name index => .builtin (number name) index
  | closure c =>
    .closure { c with
      name := number c.name, formals := number c.formals, env := number c.env,
      body := number c.body }
  | environment outer _ => .frame (if outer = absent then none else some (number outer)) fun _ => none
  | binding .. => .singleton .binding
  | tagged marker value => .tagged (number marker) (number value)

namespace Heap

variable {h : Heap} {rules : Rules} {i r t : Nat}

/-- The number of a record, in the order in which they stand. -/
def number (h : Heap) (r : Ref) : Nat := h.records.idxOf r

/-- Whether the record at `r` has the number `i`. -/
def Numbered (h : Heap) (i r : Nat) : Prop := h.records[i]? = some r

/-- The value of the thing number `s` in the frame at `r`. -/
def varOf (h : Heap) (r : Ref) (s : Nat) : Option Nat :=
  (h.records[s]?.bind (h.bound r)).map h.number

/-- The thing that the record at `r` is. -/
def thing (h : Heap) (r : Ref) : Item :=
  ((h.content r).item h.number).mapVars fun _ => h.varOf r

/-- All things that a heap has records of. -/
def things (h : Heap) : Store := ⟨h.records.map h.thing⟩

theorem numbered_number (hr : r ∈ h.records) : h.Numbered (h.number r) r := by
  unfold Numbered number
  rw [List.getElem?_eq_getElem (List.idxOf_lt_length_of_mem hr), List.getElem_idxOf]

theorem number_lt (hr : r ∈ h.records) : h.number r < h.records.length :=
  List.idxOf_lt_length_of_mem hr

theorem Numbered.eq (hi : h.Numbered i r) (hs : h.Sound rules) : h.number r = i := by
  unfold Numbered at hi
  obtain ⟨hlt, hget⟩ := List.getElem?_eq_some_iff.mp hi
  subst hget
  exact List.Nodup.idxOf_getElem hs.wf.tiled.nodup i hlt

theorem number_lt_number (hs : h.Sound rules) (hr : r ∈ h.records) (ht : t ∈ h.records)
    (hlt : r < t) : h.number r < h.number t := by
  have hpairs := List.pairwise_iff_getElem.mp hs.wf.tiled.pairwise_lt
  refine Nat.lt_of_not_le fun hle => ?_
  rcases Nat.eq_or_lt_of_le hle with heq | hgt
  · have := List.idxOf_inj ht |>.mp heq
    omega
  · have := hpairs _ _ (number_lt ht) (number_lt hr) hgt
    simp only [number, List.getElem_idxOf] at this
    omega

/-- The singletons come first. -/
theorem Sound.numbered_fixtures (hs : h.Sound rules) :
    h.Numbered Store.null Heap.null ∧ h.Numbered Store.truth Heap.truth ∧
      h.Numbered Store.falsity Heap.falsity ∧ h.Numbered Store.eof Heap.eof := by
  have hsize : ∀ p ∈ fixtures, p.2 ∈ [Kind.null, .truth, .falsity, .eof] := by decide
  -- each tile begins where the one before ends
  have hstep : ∀ (q : Nat) (kind : Kind) {rs : List Nat}, Tiled h.memory h.top q rs →
      (q, kind) ∈ fixtures → ∃ rest, rs = q :: rest ∧ Tiled h.memory h.top (q + 5) rest := by
    intro q kind rs hrest hq
    obtain ⟨hmem, hk, -⟩ := hs.fixture _ hq
    have hextent : h.memory.extent q = 5 := by
      have hkind := hsize _ hq
      simp only [List.mem_cons, List.not_mem_nil, or_false] at hkind
      unfold extent
      rw [hk]
      rcases hkind with rfl | rfl | rfl | rfl <;> rfl
    cases hrest with
    | done => exact absurd (hs.wf.lt_top hmem) (Nat.lt_irrefl _)
    | record hrest => exact ⟨_, rfl, hextent ▸ hrest⟩
  obtain ⟨rs₁, hrecords, htiled₁⟩ := hstep 0 .null hs.wf.tiled (by decide)
  obtain ⟨rs₂, rfl, htiled₂⟩ := hstep 5 .truth htiled₁ (by decide)
  obtain ⟨rs₃, rfl, htiled₃⟩ := hstep 10 .falsity htiled₂ (by decide)
  obtain ⟨rs₄, rfl, -⟩ := hstep 15 .eof htiled₃ (by decide)
  unfold Numbered
  rw [hrecords]
  exact ⟨rfl, rfl, rfl, rfl⟩

theorem Sound.numbered_field {k : Nat} (hs : h.Sound rules) (hr : r ∈ h.records)
    (hk : k ∈ h.memory.referenceFields r) (hne : h.memory.field r k ≠ absent) :
    h.Numbered (h.number (h.memory.field r k)) (h.memory.field r k) :=
  numbered_number ((hs.allowed r hr k hk).resolve_left fun hh => hne hh.1).1

end Heap

/-- Whether the contents are neither those of a record in a tree nor those of a singleton. -/
def Content.isData : Content → Bool
  | integer _ | float _ | pair .. | string _ | char _ | vector _ | builtin .. | closure _
  | tagged .. => true
  | _ => false

/-- Data make things that resemble them. -/
theorem Content.item_resembles {number : Ref → Nat} {pos : Nat → Nat → Prop} {c : Content}
    (hc : c.isData = true) (hrefs : ∀ t ∈ c.references, pos (number t) t) :
    (c.item number).Resembles pos c := by
  cases c with
  | integer value => exact .integer value
  | float bits => exact .float bits
  | pair car cdr => exact .pair (hrefs _ (.head _)) (hrefs _ (.tail _ (.head _)))
  | string codes => exact .string codes
  | char code => exact .char code
  | vector elements =>
    exact .vector (List.forall₂_map_left_iff.mpr (List.forall₂_same.mpr hrefs))
  | builtin name index => exact .builtin index (hrefs _ (.head _))
  | closure c =>
    exact .closure ⟨hrefs _ (.head _), hrefs _ (.tail _ (.head _)),
      hrefs _ (.tail _ (.tail _ (.head _))), hrefs _ (.tail _ (.tail _ (.tail _ (.head _)))), rfl, rfl⟩
  | tagged marker value => exact .tagged (hrefs _ (.head _)) (hrefs _ (.tail _ (.head _)))
  | _ => cases hc

namespace Heap

variable {h : Heap} {rules : Rules} {i r t : Nat} {shown : Nat → Prop}

theorem Sound.thing_of_data (hs : h.Sound rules) (hr : r ∈ h.records)
    (hdata : (h.content r).isData = true)
    (hmay : ∀ k, (h.memory.kind r).mayBeAbsent k = false) :
    (h.thing r).At h.Numbered h r := by
  have hres : ((h.content r).item h.number).Resembles h.Numbered (h.content r) :=
    Content.item_resembles hdata fun t ht => by
      rw [references_content] at ht
      obtain ⟨k, hk, rfl⟩ := List.mem_map.mp ht
      refine numbered_number ((hs.allowed r hr k hk).resolve_left fun hh => ?_).1
      rw [hmay] at hh
      exact Bool.false_ne_true hh.2
  unfold thing
  rw [hres.mapVars]
  exact .data hres

theorem thing_of_frame (hk : h.memory.kind r = .environment) :
    h.thing r = .frame (if h.memory.field r 0 = absent then none
      else some (h.number (h.memory.field r 0))) (h.varOf r) := by
  simp only [thing, content, Heap.kind, hk, Content.item, Item.mapVars]
  rfl

/-- The value of a record in a frame is a record, even if the frame is not in order. -/
theorem Sound.bound_mem {v : Nat} (hs : h.Sound rules) (hr : r ∈ h.records)
    (hk : h.memory.kind r = .environment) (ht : t ∈ h.records) (hv : h.bound r t = some v) :
    v ∈ h.records := by
  have hloose : h.Sound ⟨rules.closures, some absent⟩ := hs.loosen id fun heq => nomatch heq
  obtain ⟨b, hfind, rfl⟩ := Option.map_eq_some_iff.mp hv
  obtain ⟨hmem, hkind⟩ := hloose.findBinding_mem hr hk ht (fun heq => nomatch heq) hfind
  exact hs.binding_field_mem hmem hkind (by decide)

/-- Each record is the thing that it makes. -/
theorem Sound.thing_at (hs : h.Sound rules) (hl : h.Lettered) (hr : r ∈ h.records) :
    (h.thing r).At h.Numbered h r := by
  have hsingleton : ∀ {kind}, h.memory.kind r = kind → kind ∈ [.null, .truth, .falsity, .eof] →
      (r, kind) ∈ fixtures := fun {kind} hk hmem => by
    have hsome : ∀ kind ∈ [Kind.null, .truth, .falsity, .eof], ∃ p ∈ fixtures, p.2 = kind := by
      decide
    obtain ⟨p, hp, rfl⟩ := hsome kind hmem
    rw [hs.unique r hr p hp hk]
    exact hp
  cases hk : h.memory.kind r with
  | symbol =>
    obtain ⟨text, htext⟩ := hl _ ⟨r, hr, hk, rfl⟩
    have hthing : h.thing r = .symbol (Text.decode (h.nameBytes r)) := by
      simp only [thing, content, Heap.kind, hk, Content.item, Item.mapVars]
    rw [hthing, htext, Text.decode_toUTF8]
    exact .symbol hk htext
  | environment =>
    rw [thing_of_frame hk]
    refine .frame hk ?_ fun s t hst => ?_
    · by_cases habs : h.memory.field r 0 = absent
      · exact Or.inl ⟨if_pos habs, habs⟩
      · exact Or.inr ⟨_, if_neg habs, hs.numbered_field hr (by rw [environment_references hk]; decide) habs⟩
    · have hst : h.records[s]? = some t := hst
      unfold varOf
      rw [hst, Option.bind_some]
      cases hv : h.bound r t with
      | none => exact .none
      | some v => exact .some (numbered_number (hs.bound_mem hr hk (List.mem_of_getElem? hst) hv))
  | binding =>
    have hthing : h.thing r = .singleton .binding := by
      simp only [thing, content, Heap.kind, hk, Content.item, Item.mapVars]
    exact hthing ▸ .binding hk
  | null | truth | falsity | eof =>
    simp only [thing, content, Heap.kind, hk, Content.item, Item.mapVars]
    exact .singleton (hsingleton hk (by decide))
  | _ =>
    exact hs.thing_of_data hr (by simp only [content, Heap.kind, hk, Content.isData])
      fun k => by rw [hk]; rfl

theorem Sound.number_field_lt {k : Nat} (hs : h.Sound rules) (hr : r ∈ h.records)
    (hk : k ∈ h.memory.referenceFields r) (hne : h.memory.field r k ≠ absent)
    (hfits : (h.memory.kind r).Fits rules k r (h.memory.kind (h.memory.field r k))
      (h.memory.field r k) → h.memory.field r k < r) :
    h.number (h.memory.field r k) < h.number r := by
  obtain ⟨hmem, hold⟩ := (hs.allowed r hr k hk).resolve_left fun hh => hne hh.1
  exact number_lt_number hs hmem hr (hfits hold)

/-- Things are made of things, outer frames and the parts of tagged values of older ones. -/
theorem Sound.thing_closed (hs : h.Sound rules) (hl : h.Lettered) (hr : r ∈ h.records) :
    (h.thing r).Closed (h.number r) h.records.length := by
  have hlt : ∀ {i q}, h.Numbered i q → i < h.records.length := fun hi =>
    (List.getElem?_eq_some_iff.mp hi).1
  have hat := hs.thing_at hl hr
  generalize hthing : h.thing r = item at hat ⊢
  cases hat with
  | symbol _ _ => trivial
  | singleton hmem =>
    have hplain : ∀ p ∈ fixtures, p.2 ≠ Kind.environment := by decide
    exact hplain _ hmem
  | binding _ => exact fun heq => nomatch heq
  | frame hk _ _ =>
    rw [thing_of_frame hk] at hthing
    cases hthing
    refine ⟨fun o ho => ?_, fun s v hv => ?_⟩
    · split at ho
      · cases ho
      · rename_i hne
        cases ho
        refine hs.number_field_lt hr (by rw [environment_references hk]; decide) hne fun hfits => ?_
        rw [hk] at hfits
        exact hfits.2
    · unfold varOf at hv
      obtain ⟨t, ht', rfl⟩ := Option.map_eq_some_iff.mp hv
      obtain ⟨q, hq, hbound⟩ := Option.bind_eq_some_iff.mp ht'
      exact ⟨hlt hq, number_lt (hs.bound_mem hr hk (List.mem_of_getElem? hq) hbound)⟩
  | data hres =>
    have hkind := hres.kind_eq
    generalize hc : h.content r = c at hres
    cases hres with
    | pair ha hd => exact ⟨hlt ha, hlt hd⟩
    | integer _ | float _ | char _ | string _ => trivial
    | vector hall =>
      exact ((List.forall₂_and_left _ _).mp (hall.imp fun _ _ hi => ⟨hlt hi, hi⟩)).1
    | builtin index hname => exact hlt hname
    | closure halike => exact ⟨hlt halike.name, hlt halike.formals, hlt halike.env, hlt halike.body⟩
    | tagged hm hv =>
      have hparts : h.content r = .tagged (h.memory.field r 0) (h.memory.field r 1) := by
        simp only [content, Heap.kind, hkind, Item.kind]
        rfl
      cases hparts.symm.trans hc
      have hfields : ∀ k ∈ [0, 1], h.memory.field r k ∈ h.records →
          h.number (h.memory.field r k) < h.number r := fun k hk hmem => by
        refine hs.number_field_lt hr ?_ (hs.wf.ne_absent hmem) fun hfits => ?_
        · simp only [referenceFields, hkind, Item.kind]
          exact hk
        · rw [hkind] at hfits
          exact hfits
      rw [← hm.eq hs, ← hv.eq hs]
      exact ⟨hfields 0 (by decide) (List.mem_of_getElem? hm),
        hfields 1 (by decide) (List.mem_of_getElem? hv)⟩

/-- Pinned records are anchored to their numbers. -/
def Anchored (h : Heap) (i r : Nat) : Prop := h.Numbered i r ∧ h.memory.isPinned r = true

theorem getElem?_things (h : Heap) (i : Nat) : h.things.items[i]? = h.records[i]?.map h.thing :=
  List.getElem?_map

theorem item_things (hi : h.Numbered i r) : h.things.item i = h.thing r := by
  unfold Store.item
  rw [getElem?_things, show h.records[i]? = some r from hi]
  rfl

theorem length_things (h : Heap) : h.things.items.length = h.records.length := List.length_map _

theorem Sound.closure_frame {c : Closure} (hs : h.Sound rules) (hrules : rules.closures = true)
    (hr : r ∈ h.records) (hc : h.content r = .closure c) : h.memory.kind c.env = .environment := by
  have hk : h.memory.kind r = .closure ∧ h.memory.field r 2 = c.env := by
    unfold content Heap.kind at hc
    cases hk : h.memory.kind r <;> simp only [hk] at hc <;> cases hc
    exact ⟨rfl, rfl⟩
  have hmem : 2 ∈ h.memory.referenceFields r := by simp [referenceFields, hk.1]
  rcases hs.allowed r hr 2 hmem with ⟨-, hmay⟩ | ⟨-, hfits⟩
  · rw [hk.1] at hmay
    cases hmay
  · rw [hk.1, hk.2] at hfits
    exact hfits rfl hrules

theorem Sound.kind_thing (hs : h.Sound rules) (hl : h.Lettered) (hi : h.Numbered i r) :
    (h.things.item i).kind = h.memory.kind r := by
  rw [item_things hi]
  exact ((hs.thing_at hl (List.mem_of_getElem? hi)).kind hs).symm

/-! Parts of a heap. -/

/-- A part of the heap that has all symbols and singletons and what the slots hold, and with a record
all that it leads to. -/
structure Part (h : Heap) (shown : Nat → Prop) : Prop where
  field : ∀ r ∈ h.records, shown r → ∀ k ∈ h.memory.referenceFields r,
    h.memory.field r k ≠ absent → shown (h.memory.field r k)
  root : ∀ r ∈ h.roots, shown r
  symbol : ∀ r ∈ h.records, h.memory.kind r = .symbol → shown r
  fixture : ∀ p ∈ fixtures, shown p.1

theorem Part.whole (h : Heap) : h.Part fun _ => True :=
  ⟨fun _ _ _ _ _ _ => trivial, fun _ _ => trivial, fun _ _ _ => trivial, fun _ _ => trivial⟩

/-- The numbers of the records of a part. -/
def Seen (h : Heap) (shown : Nat → Prop) (i r : Nat) : Prop := h.Numbered i r ∧ shown r

theorem seen_whole (h : Heap) : h.Seen (fun _ => True) = h.Numbered := by
  funext i r
  simp [Seen]

/-- A part with a frame has its bindings. -/
theorem Part.hangs {b : Nat} (hp : h.Part shown) (hs : h.Sound rules) (hr : r ∈ h.records)
    (hk : h.memory.kind r = .environment) (hshown : shown r) (hb : h.Hangs r b) : shown b := by
  induction hb with
  | root hne => exact hp.field r hr hshown 1 (by rw [environment_references hk]; decide) hne
  | child hup hside hne ih =>
    obtain ⟨hmem, hkind⟩ := hup.binding hs hr hk
    exact hp.field _ hmem ih _ (mem_binding_references hkind (by omega)) hne

/-- The records of a part are things of their own. -/
theorem Part.thing_at {all : Prop} {ordered : Nat → Prop} (hp : h.Part shown) (hs : h.Sound rules)
    (ht : h.Ranged all ordered) (hordered : ordered r) (hl : h.Lettered) (hr : r ∈ h.records)
    (hshown : shown r) : (h.thing r).At (h.Seen shown) h r := by
  have hat := hs.thing_at hl hr
  generalize h.thing r = item at hat ⊢
  cases hat with
  | symbol hk hname => exact .symbol hk hname
  | singleton hmem => exact .singleton hmem
  | binding hk => exact .binding hk
  | @frame outer vars hk houter hvars =>
    refine .frame hk ?_ fun s t hst => ?_
    · refine houter.imp_right fun ⟨o, ho, hpos⟩ => ⟨o, ho, hpos, ?_⟩
      exact hp.field r hr hshown 0 (by rw [environment_references hk]; decide)
        (hs.wf.ne_absent (List.mem_of_getElem? hpos))
    · have hvalue := hvars s t hst.1
      generalize vars s = w at hvalue ⊢
      generalize hv : h.bound r t = x at hvalue ⊢
      cases hvalue with
      | none => exact .none
      | some hpos =>
        obtain ⟨bs, hbs⟩ := ht.scope r hr hk hordered
        obtain ⟨b, hb, -, rfl⟩ := (hbs.bound_eq_some_iff hs hr hk).mp hv
        obtain ⟨hmem, hkind⟩ := hbs.mem b hb
        exact .some ⟨hpos, hp.field b hmem (hp.hangs hs hr hk hshown (hbs.hangs b hb)) 1
          (mem_binding_references hkind (by decide)) (hs.wf.ne_absent (List.mem_of_getElem? hpos))⟩
  | data hres =>
    refine .data (hres.mono fun i t ht hpos => ⟨hpos, ?_⟩)
    rw [references_content] at ht
    obtain ⟨k, hk, rfl⟩ := List.mem_map.mp ht
    exact hp.field r hr hshown k hk (hs.wf.ne_absent (List.mem_of_getElem? hpos))

/-- A part of a heap whose frames are in order portrays the things that the heap has records of. -/
theorem Part.portrays {ground : Ground} (hp : h.Part shown) (hs : h.Sound rules)
    (hclosures : rules.closures = true) (htable : ground.strict = true → rules.table = none)
    (ht : ground.Ranged (h.Seen shown) h) (hl : h.Lettered)
    (hanchored : ∀ {i r}, ground.anchored i r → h.Anchored i r ∧ shown r) :
    Portrays ground h.things (h.roots.toList.map h.number) (h.Seen shown) h where
  sound := by
    refine hs.loosen (fun heq => nomatch heq) fun heq => htable ?_
    unfold Ground.rules at heq
    cases hstrict : ground.strict with
    | true => rfl
    | false => simp [hstrict] at heq
  ranged := ht
  closed {i item} hi := by
    rw [getElem?_things] at hi
    obtain ⟨r, hr, rfl⟩ := Option.map_eq_some_iff.mp hi
    rw [length_things, ← Numbered.eq hr hs]
    exact hs.thing_closed hl (List.mem_of_getElem? hr)
  functional hi hi' := Option.some.inj (hi.1.symm.trans hi'.1)
  injective hi hj := (hi.1.eq hs).symm.trans (hj.1.eq hs)
  mem hi := List.mem_of_getElem? hi.1
  item {i r} hi := by
    refine ⟨h.thing r, ?_, hp.thing_at hs ht (Or.inr ⟨i, hi⟩) hl (List.mem_of_getElem? hi.1) hi.2⟩
    rw [getElem?_things, show h.records[i]? = some r from hi.1]
    rfl
  slots := by
    refine List.forall₂_map_left_iff.mpr (List.forall₂_same.mpr fun r hr => ?_)
    have hmem := Array.mem_toList_iff.mp hr
    exact ⟨numbered_number (hs.wf.root r hmem), hp.root r hmem⟩
  null := ⟨hs.numbered_fixtures.1, hp.fixture (Heap.null, .null) (by decide)⟩
  symbol r hr hk := ⟨h.number r, numbered_number hr, hp.symbol r hr hk⟩
  placed {i name} hi := by
    rw [getElem?_things] at hi
    obtain ⟨r, hr, hthing⟩ := Option.map_eq_some_iff.mp hi
    have hmem := List.mem_of_getElem? hr
    refine ⟨r, hr, hp.symbol r hmem ?_⟩
    rw [(hs.thing_at hl hmem).kind hs, hthing]
    rfl
  stays hi := ⟨(hanchored hi).1.1, (hanchored hi).2⟩
  pinned hi := (hanchored hi).1.2
  captured i c hi := by
    rw [getElem?_things] at hi
    obtain ⟨r, hr, hthing⟩ := Option.map_eq_some_iff.mp hi
    have hmem := List.mem_of_getElem? hr
    have hat := hs.thing_at hl hmem
    rw [hthing] at hat
    cases hat with
    | data hres =>
      generalize hc : h.content r = content at hres
      cases hres with
      | closure halike =>
        rw [hs.kind_thing hl halike.env]
        exact hs.closure_frame hclosures hmem hc

/-- A heap that is in order portrays all that it has records of. -/
theorem Sound.portrays (hs : h.Sound Rules.strict) (ht : h.Tidy) (hl : h.Lettered) :
    Portrays ⟨true, h.Anchored⟩ h.things (h.roots.toList.map h.number) h.Numbered h :=
  h.seen_whole ▸ (Part.whole h).portrays hs rfl (fun _ => rfl)
    (ht.mono (fun _ => trivial) fun _ _ => trivial) hl fun hi => ⟨hi, trivial⟩

/-- Whether one can get from a record to the one at `t`. -/
inductive Leads (h : Heap) (t : Nat) : Nat → Prop
  | here : Leads h t t
  | field {r k : Nat} : k ∈ h.memory.referenceFields r → h.memory.field r k ≠ absent →
    Leads h t (h.memory.field r k) → Leads h t r

theorem Leads.kind_of_symbol (hl : h.Leads t r) (hs : h.Sound rules) (hr : r ∈ h.records)
    (hk : h.memory.kind r = .symbol) : h.memory.kind t = .symbol := by
  induction hl with
  | here => exact hk
  | field hfield hne _ ih =>
    obtain ⟨hmem, hfits⟩ := (hs.allowed _ hr _ hfield).resolve_left fun hh => hne hh.1
    rw [hk] at hfits
    exact ih hmem hfits.1

/-- What does not lead to a frame, if none of the slots does. -/
theorem Sound.part_apart (hs : h.Sound rules) (hk : h.memory.kind t = .environment)
    (hroots : ∀ r ∈ h.roots, ¬ h.Leads t r) : h.Part fun r => ¬ h.Leads t r where
  field _ _ hnot _ hk hne hl := hnot (.field hk hne hl)
  root := hroots
  symbol _ hr hsymbol hl := nomatch hk.symm.trans (hl.kind_of_symbol hs hr hsymbol)
  fixture p hp hl := by
    have hplain : ∀ p ∈ fixtures, p.2 ≠ .environment ∧
        p.2 ∈ [Kind.null, .truth, .falsity, .eof] := by decide
    have hkind := (hs.fixture p hp).2.1
    cases hl with
    | here => exact (hplain p hp).1 (hkind.symm.trans hk)
    | field hfield _ _ =>
      have hmem := (hplain p hp).2
      rw [← hkind] at hmem
      unfold referenceFields at hfield
      simp only [List.mem_cons, List.not_mem_nil, or_false] at hmem
      rcases hmem with heq | heq | heq | heq <;> rw [heq] at hfield <;> cases hfield

end Heap

/-- The keywords as numbers. -/
def Keywords.numbers (f : Ref → Nat) (k : Keywords) : Keywords where
  forms := k.forms.map fun p => (f p.1, p.2)
  quote := f k.quote
  quasiquote := f k.quasiquote
  unquote := f k.unquote
  begin := f k.begin
  lambda := f k.lambda
  defineTransformer := f k.defineTransformer
  dot := f k.dot
  undefined := f k.undefined

theorem Keywords.alike_numbers {f : Ref → Nat} {link : Nat → Nat → Prop} {k : Keywords}
    (h : ∀ r ∈ k.symbols, link (f r) r) : (k.numbers f).Alike link k := by
  simp only [Keywords.symbols, List.forall_mem_append, List.forall_mem_map, List.forall_mem_cons,
    List.not_mem_nil, false_implies, implies_true, and_true] at h
  obtain ⟨hforms, hquote, hquasiquote, hunquote, hbegin, hlambda, hdefine, hdot, hundefined⟩ := h
  refine ⟨?_, hquote, hquasiquote, hunquote, hbegin, hlambda, hdefine, hdot, hundefined⟩
  exact List.forall₂_map_left_iff.mpr (List.forall₂_same.mpr fun p hp => ⟨hforms p hp, rfl⟩)

namespace Machine

variable {m : Machine} {size : UInt32}

/-- The world of a machine. -/
def world (m : Machine) : World where
  store := m.heap.things
  keywords := m.keywords.numbers m.heap.number
  globals := m.heap.number m.globals
  output := m.output

/-- A part of the machine and its world. -/
def scene (m : Machine) (shown : Nat → Prop) : Scene where
  machine := m
  world := m.world
  slots := m.heap.roots.toList.map m.heap.number
  pos := m.heap.Seen shown

theorem Confined.reachable (hc : Confined size m) : Reachable size m := by
  induction hc with
  | start h => exact .start h
  | call fuel _ hcall _ ih => exact ih.call fuel hcall
  | read failAtEnd tokens _ ih => exact ih.read failAtEnd tokens
  | operate _ hop hcaptured ih => exact ih.operate hop hcaptured
  | trace tracing _ ih => exact ih.trace tracing
  | flush _ ih => exact ih.flush

/-- A part of the machine with the global frame shows the world, if its heap does. -/
theorem Intact.faithful {ground : Ground} {shown : Nat → Prop} (hm : m.Intact) (hl : m.heap.Lettered)
    (hclosed : m.hostProcedures = #[]) (hp : m.heap.Part shown) (hglobals : shown m.globals)
    (hportrays : Portrays ground m.heap.things (m.scene shown).slots (m.heap.Seen shown) m.heap)
    (hanchored : ∀ i r, m.heap.Anchored i r → shown r → ground.anchored i r) :
    (m.scene shown).Faithful ground := by
  obtain ⟨-, htruth, hfalsity, heof⟩ := hm.sound.numbered_fixtures
  have hfixture : ∀ {i}, ∀ p ∈ fixtures, m.heap.Numbered i p.1 → ground.anchored i p.1 :=
    fun p hp' hi => hanchored _ _ ⟨hi, (hm.sound.fixture p hp').2.2⟩ (hp.fixture p hp')
  exact
    { toPortrays := hportrays
      keywords := Keywords.alike_numbers fun r hr => by
        obtain ⟨hmem, hpinned, hk⟩ := hm.stands.keywords r hr
        exact hanchored _ _ ⟨numbered_number hmem, hpinned⟩ (hp.symbol r hmem hk)
      globals := hanchored _ _ ⟨numbered_number hm.globals.1, hm.globals.2.1⟩ hglobals
      truth := hfixture (Heap.truth, .truth) (by decide) htruth
      falsity := hfixture (Heap.falsity, .falsity) (by decide) hfalsity
      eof := hfixture (Heap.eof, .eof) (by decide) heof
      globals_kind := (hm.sound.kind_thing hl (numbered_number hm.globals.1)).trans hm.globals.2.2
      hosts := hclosed
      output := rfl }

/-- A machine in order shows its world. -/
theorem Confined.faithful (hc : Confined size m) :
    (m.scene fun _ => True).Faithful ⟨true, m.heap.Anchored⟩ := by
  have hl := hc.reachable.lettered
  refine hc.reachable.intact.faithful hl hc.strict.closed (Part.whole _) trivial ?_ fun _ _ hi _ => hi
  rw [seen_whole]
  exact hc.strict.sound.portrays hc.strict.tidy hl

/-- Every machine shows its world, but for the frame of the transformers and what leads there. -/
theorem Reachable.faithful (hr : Reachable size m) (hclosed : m.hostProcedures = #[])
    (hroots : ∀ r ∈ m.heap.roots, ¬ m.heap.Leads m.transformers r)
    (hglobals : ¬ m.heap.Leads m.transformers m.globals) :
    (m.scene fun r => ¬ m.heap.Leads m.transformers r).Faithful
      ⟨false, fun i r => m.heap.Anchored i r ∧ ¬ m.heap.Leads m.transformers r⟩ := by
  have hm := hr.intact
  have hp := hm.sound.part_apart hm.transformers.2.2 hroots
  refine hm.faithful hr.lettered hclosed hp hglobals ?_ fun _ _ hi hnot => ⟨hi, hnot⟩
  refine hp.portrays hm.sound rfl (fun hfalse => nomatch hfalse) ?_ hr.lettered id
  refine hr.ranged.mono (fun hfalse => nomatch hfalse) fun f hf heq => ?_
  obtain ⟨i, -, hnot⟩ := hf.resolve_left fun hfalse => nomatch hfalse
  exact hnot (heq ▸ .here)

end Machine

end ArenaScheme
