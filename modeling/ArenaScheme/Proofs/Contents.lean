import ArenaScheme.Proofs.Making
import ArenaScheme.Proofs.SymbolTable

/-! The heap as a store of typed objects. The contents of a record are its kind, its payload and its
references; they say nothing about bytes and addresses. A record that stands for another one has the
same contents, up to where its references lead. -/

namespace ArenaScheme

open Memory Heap

theorem charOfCode_toNat (c : Char) : charOfCode c.toNat = c := by
  have hvalid : c.toNat.isValidChar := c.valid
  rw [charOfCode, if_pos hvalid, Char.ofNat_toNat]

/-- What a record holds. A reference may be absent. -/
inductive Content where
  | integer (value : Int)
  | float (bits : UInt64)
  | symbol (left right : Ref) (digest : Nat) (name : List UInt8)
  | pair (car cdr : Ref)
  | string (codes : List Nat)
  | boolean (value : Bool)
  | char (code : Nat)
  | null
  | eof
  | vector (elements : List Ref)
  | builtin (name : Ref) (index : Nat)
  | closure (closure : Closure)
  | environment (outer bindings : Ref)
  | binding (key value left right : Ref)
  | tagged (marker value : Ref)
  deriving DecidableEq, Repr

namespace Content

/-- The same contents with other references. -/
def map (f : Ref → Ref) : Content → Content
  | symbol left right digest name => symbol (f left) (f right) digest name
  | pair car cdr => pair (f car) (f cdr)
  | vector elements => vector (elements.map f)
  | builtin name index => builtin (f name) index
  | closure c =>
    closure { c with name := f c.name, formals := f c.formals, env := f c.env, body := f c.body }
  | environment outer bindings => environment (f outer) (f bindings)
  | binding key value left right => binding (f key) (f value) (f left) (f right)
  | tagged marker value => tagged (f marker) (f value)
  | content => content

theorem map_id (c : Content) : c.map id = c := by
  cases c <;> simp [map]

theorem map_map (f g : Ref → Ref) (c : Content) : (c.map f).map g = c.map (g ∘ f) := by
  cases c <;> simp [map]

/-- The references among the contents. -/
def references : Content → List Ref
  | symbol left right _ _ => [left, right]
  | pair car cdr => [car, cdr]
  | vector elements => elements
  | builtin name _ => [name]
  | closure c => [c.name, c.formals, c.env, c.body]
  | environment outer bindings => [outer, bindings]
  | binding key value left right => [key, value, left, right]
  | tagged marker value => [marker, value]
  | _ => []

theorem references_map (f : Ref → Ref) (c : Content) : (c.map f).references = c.references.map f := by
  cases c <;> rfl

/-- What a program sees of the contents. -/
def object : Content → Object
  | integer value => .integer value
  | float bits => .float bits
  | symbol .. => .symbol
  | pair car cdr => .pair car cdr
  | string codes => .string codes.length
  | boolean value => .boolean value
  | char code => .char (charOfCode code)
  | null => .null
  | eof => .eof
  | vector elements => .vector elements.length
  | builtin name index => .builtin name index
  | closure c => .closure c
  | environment outer _ => .environment (if outer = absent then none else some outer)
  | binding .. => .binding
  | tagged marker value => .tagged marker value

/-- The contents with `t` in field `k`, of those that a program can change. -/
def put (k t : Nat) : Content → Content
  | pair car cdr => if k = 0 then pair t cdr else pair car t
  | symbol left right digest name =>
    if k = 0 then symbol t right digest name else symbol left t digest name
  | string codes => string (codes.set (k - 1) t)
  | vector elements => vector (elements.set (k - 1) t)
  | content => content

end Content

/-- Where a reference leads when records have moved; the absent one still leads nowhere. -/
def follow (place : Ref → Ref) (r : Ref) : Ref := if r = absent then absent else place r

theorem follow_of_ne {place : Ref → Ref} {r : Ref} (h : r ≠ absent) : follow place r = place r :=
  if_neg h

@[simp] theorem follow_absent (place : Ref → Ref) : follow place absent = absent := if_pos rfl

namespace Heap

/-- The elements of a string or a vector. -/
def elements (h : Heap) (r : Ref) : List Nat :=
  (List.range (h.field r 0)).map fun i => h.field r (1 + i)

/-- The contents of the record at `r`. -/
def content (h : Heap) (r : Ref) : Content :=
  match h.kind r with
  | .integer => .integer (signedOfWord (h.payload r))
  | .float => .float (UInt64.ofNat (h.payload r))
  | .symbol => .symbol (h.field r 0) (h.field r 1) (h.field r 2) (h.nameBytes r)
  | .pair => .pair (h.field r 0) (h.field r 1)
  | .string => .string (h.elements r)
  | .truth => .boolean true
  | .falsity => .boolean false
  | .char => .char (h.field r 0)
  | .null => .null
  | .builtin => .builtin (h.field r 0) (h.field r 1)
  | .closure =>
    .closure
      { name := h.field r 0, formals := h.field r 1, env := h.field r 2, body := h.field r 3,
        arity := h.field r 4, rest := h.memory.byte (fieldAddress r 5) != 0 }
  | .vector => .vector (h.elements r)
  | .eof => .eof
  | .environment => .environment (h.field r 0) (h.field r 1)
  | .binding => .binding (h.field r 0) (h.field r 1) (h.field r 2) (h.field r 3)
  | .tagged => .tagged (h.field r 0) (h.field r 1)

/-- The store that a heap stands for: the objects at the positions of its records. -/
def store (h : Heap) (r : Ref) : Option Content :=
  if r ∈ h.records then some (h.content r) else none

theorem store_of_mem {h : Heap} {r : Ref} (hr : r ∈ h.records) : h.store r = some (h.content r) :=
  if_pos hr

theorem store_eq_some {h : Heap} {r : Ref} {c : Content} :
    h.store r = some c ↔ r ∈ h.records ∧ h.content r = c := by
  unfold store
  split <;> simp_all

/-- What a program sees of a record can be told from its contents. -/
theorem object_eq (h : Heap) (r : Ref) : h.object r = (h.content r).object := by
  unfold content object
  cases h.kind r <;> simp only [Content.object, elements, List.length_map, List.length_range]

theorem references_content (h : Heap) (r : Ref) :
    (h.content r).references = (h.memory.referenceFields r).map (h.memory.field r) := by
  have hvector : h.elements r = (List.range' 1 (h.memory.field r 0)).map (h.memory.field r) := by
    rw [List.range'_eq_map_range, List.map_map]
    rfl
  cases hk : h.memory.kind r <;>
    simp only [content, Heap.kind, hk, referenceFields, Content.references, hvector, Heap.field,
      List.map_cons, List.map_nil]

/-- A record that stands for another one has the same contents, up to where references lead. -/
theorem content_of_matches {h g : Heap} {r s : Nat} {link : Nat → Nat → Prop} {f : Ref → Ref}
    (hm : Matches link h.memory r g.memory s) (hf : ∀ a b, Linked link a b → b = f a) :
    g.content s = (h.content r).map f := by
  have href : ∀ k ∈ h.memory.referenceFields r, g.field s k = f (h.field r k) := fun k hk =>
    hf _ _ (hm.reference k hk)
  have hplain : ∀ k, k ∉ h.memory.referenceFields r → 9 + 4 * k ≤ h.memory.extent r →
      g.field s k = h.field r k := fun k hk hend => hm.field hk hend
  unfold content
  simp only [Heap.kind, hm.kind]
  cases hk : h.memory.kind r <;> simp only [extent, referenceFields, hk] at href hplain ⊢
  case integer | float =>
    rw [payload, payload, hplain 0 (by decide) (by decide),
      hplain 1 (by decide) (by decide)]
    rfl
  case symbol =>
    rw [href 0 (by decide), href 1 (by decide), hm.nameBytes hk,
      hplain 2 (by decide) (by simp only [symbolSize, fieldsSize]; omega)]
    rfl
  case pair | environment | tagged =>
    rw [href 0 (by decide), href 1 (by decide)]
    rfl
  case binding =>
    rw [href 0 (by decide), href 1 (by decide), href 2 (by decide), href 3 (by decide)]
    rfl
  case char =>
    rw [hplain 0 (by decide) (by decide)]
    rfl
  case builtin =>
    rw [href 0 (by decide), hplain 1 (by decide) (by decide)]
    rfl
  case closure =>
    have hrest : g.memory.byte (fieldAddress s 5) = h.memory.byte (fieldAddress r 5) := by
      refine hm.payload 25 (by decide) (by simp only [extent, hk, closureSize]; decide) ?_
      simp only [InReference, referenceFields, hk]
      rintro ⟨k, hk, -, hlt⟩
      simp only [List.mem_cons, List.not_mem_nil, or_false] at hk
      omega
    rw [href 0 (by decide), href 1 (by decide), href 2 (by decide), href 3 (by decide), hrest,
      hplain 4 (by decide) (by decide)]
    rfl
  case string =>
    have helements : g.elements s = h.elements r := by
      rw [elements, elements, hplain 0 (by decide) (by simp only [sequenceSize, fieldsSize]; omega)]
      refine List.map_congr_left fun i hi => hplain (1 + i) (by simp) ?_
      have := List.mem_range.mp hi
      simp only [sequenceSize, fieldsSize, Heap.field] at this ⊢
      omega
    rw [helements]
    rfl
  case vector =>
    have helements : g.elements s = (h.elements r).map f := by
      rw [elements, elements, List.map_map,
        hplain 0 (by simp) (by simp only [sequenceSize, fieldsSize]; omega)]
      refine List.map_congr_left fun i hi => href (1 + i) (List.mem_range'_1.mpr ?_)
      have := List.mem_range.mp hi
      simp only [Heap.field] at this
      omega
    rw [helements]
    rfl
  all_goals rfl

/-- Where nothing but the place in memory has changed, the contents are the same. -/
theorem content_of_same {h g : Heap} {r s : Nat} (hm : Matches Eq h.memory r g.memory s) :
    g.content s = h.content r := by
  rw [content_of_matches hm (f := id), Content.map_id]
  rintro a b (⟨rfl, rfl⟩ | rfl) <;> rfl

/-! The contents of a record that was just written. -/

section Written

variable {h : Heap} {r a b : Nat} {pinned : Bool}

theorem content_integer {value : Int}
    (hvalue : -9223372036854775808 ≤ value ∧ value < 9223372036854775808)
    (hw : Written h.memory r .integer pinned [(value % 18446744073709551616).toNat,
      (value % 18446744073709551616).toNat / 4294967296] []) :
    h.content r = .integer value := by
  have hlow : h.field r 0 = _ := hw.field 0 _ rfl
  have hhigh : h.field r 1 = _ := hw.field 1 _ rfl
  simp only [content, Heap.kind, hw.kind, payload, hlow, hhigh, signedOfWord]
  congr 1
  split <;> omega

theorem content_float {bits : UInt64}
    (hw : Written h.memory r .float pinned [bits.toNat, bits.toNat / 4294967296] []) :
    h.content r = .float bits := by
  have hlow : h.field r 0 = _ := hw.field 0 _ rfl
  have hhigh : h.field r 1 = _ := hw.field 1 _ rfl
  have hlt := bits.toNat_lt
  have hpayload : h.payload r = bits.toNat := by
    rw [payload, hlow, hhigh]
    omega
  simp only [content, Heap.kind, hw.kind, hpayload, UInt64.ofNat_toNat]

theorem content_char {code : Nat} (hcode : code < 4294967296)
    (hw : Written h.memory r .char pinned [code] []) : h.content r = .char code := by
  have hfield : h.field r 0 = code := hw.word rfl hcode
  simp only [content, Heap.kind, hw.kind, hfield]

theorem content_pair (ha : a < 4294967296) (hb : b < 4294967296)
    (hw : Written h.memory r .pair pinned [a, b] []) : h.content r = .pair a b := by
  have hcar : h.field r 0 = a := hw.word rfl ha
  have hcdr : h.field r 1 = b := hw.word rfl hb
  simp only [content, Heap.kind, hw.kind, hcar, hcdr]

theorem content_tagged (ha : a < 4294967296) (hb : b < 4294967296)
    (hw : Written h.memory r .tagged pinned [a, b] []) : h.content r = .tagged a b := by
  have hmarker : h.field r 0 = a := hw.word rfl ha
  have hvalue : h.field r 1 = b := hw.word rfl hb
  simp only [content, Heap.kind, hw.kind, hmarker, hvalue]

theorem content_environment (ha : a < 4294967296)
    (hw : Written h.memory r .environment pinned [a, absent] []) :
    h.content r = .environment a absent := by
  have houter : h.field r 0 = a := hw.word rfl ha
  have hbindings : h.field r 1 = absent := hw.word rfl (by decide)
  simp only [content, Heap.kind, hw.kind, houter, hbindings]

theorem content_builtin (ha : a < 4294967296) {index : Nat} (hindex : index < 4294967296)
    (hw : Written h.memory r .builtin pinned [a, index] []) : h.content r = .builtin a index := by
  have hname : h.field r 0 = a := hw.word rfl ha
  have hindex' : h.field r 1 = index := hw.word rfl hindex
  simp only [content, Heap.kind, hw.kind, hname, hindex']

theorem content_closure {c : Closure} (hrefs : ∀ x ∈ [c.name, c.formals, c.env, c.body], x < 4294967296)
    (harity : c.arity < 4294967296)
    (hw : Written h.memory r .closure pinned [c.name, c.formals, c.env, c.body, c.arity]
      [if c.rest then 1 else 0]) : h.content r = .closure c := by
  have hname : h.field r 0 = c.name := hw.word rfl (hrefs _ (by simp))
  have hformals : h.field r 1 = c.formals := hw.word rfl (hrefs _ (by simp))
  have henv : h.field r 2 = c.env := hw.word rfl (hrefs _ (by simp))
  have hbody : h.field r 3 = c.body := hw.word rfl (hrefs _ (by simp))
  have harity' : h.field r 4 = c.arity := hw.word rfl harity
  have hrest : h.memory.byte (fieldAddress r 5) = if c.rest then 1 else 0 := hw.byte 0 _ rfl
  have hflag : ((if c.rest then 1 else 0 : UInt8) != 0) = c.rest := by cases c.rest <;> rfl
  simp only [content, Heap.kind, hw.kind, hname, hformals, henv, hbody, harity', hrest, hflag]

theorem elements_of_written {kind : Kind} {xs : List Nat} (hlength : xs.length < 4294967296)
    (hxs : ∀ x ∈ xs, x < 4294967296)
    (hw : Written h.memory r kind pinned (xs.length :: xs) []) : h.elements r = xs := by
  have hfield : h.field r 0 = xs.length := hw.word rfl hlength
  rw [elements, hfield]
  refine List.ext_getElem (by simp) fun i hi hi' => ?_
  rw [List.getElem_map, List.getElem_range, Nat.add_comm]
  exact hw.word (List.getElem?_cons_succ.trans (List.getElem?_eq_getElem hi'))
    (hxs _ (List.getElem_mem hi'))

theorem content_string {codes : List Nat} (hlength : codes.length < 4294967296)
    (hcodes : ∀ x ∈ codes, x < 4294967296)
    (hw : Written h.memory r .string pinned (codes.length :: codes) []) :
    h.content r = .string codes := by
  simp only [content, Heap.kind, hw.kind, elements_of_written hlength hcodes hw]

theorem content_vector {xs : List Nat} (hlength : xs.length < 4294967296)
    (hxs : ∀ x ∈ xs, x < 4294967296)
    (hw : Written h.memory r .vector pinned (xs.length :: xs) []) : h.content r = .vector xs := by
  simp only [content, Heap.kind, hw.kind, elements_of_written hlength hxs hw]

theorem content_symbol {digest : Nat} {name : List UInt8} (hdigest : digest < 4294967296)
    (hlength : name.length < 4294967296)
    (hw : Written h.memory r .symbol pinned [absent, absent, digest, name.length] name) :
    h.content r = .symbol absent absent digest name := by
  have hleft : h.field r 0 = absent := hw.word rfl (by decide)
  have hright : h.field r 1 = absent := hw.word rfl (by decide)
  have hdigest' : h.field r 2 = digest := hw.word rfl hdigest
  simp only [content, Heap.kind, hw.kind, hleft, hright, hdigest', nameBytes_of_written hlength hw]

end Written

/-! The contents of a record with one field overwritten. -/

section Overwritten

variable {h g : Heap} {r k t : Nat}

theorem content_other {p : Nat} (hn : FieldSet h.records h.memory r k t g.memory)
    (hp : p ∈ h.records) (hne : p ≠ r) : g.content p = h.content p :=
  content_of_same (hn.matches_other hp hne)

theorem elements_put (hn : FieldSet h.records h.memory r k t g.memory) (hr : r ∈ h.records)
    (hextent : h.memory.extent r = sequenceSize (h.field r 0)) (hk : 1 ≤ k) :
    g.elements r = (h.elements r).set (k - 1) t := by
  have hlength : g.field r 0 = h.field r 0 :=
    hn.field hr (fun _ => by omega) (by rw [hextent, sequenceSize, fieldsSize]; omega)
  rw [elements, elements, hlength]
  refine List.ext_getElem (by simp) fun i hi hi' => ?_
  have hlt : i < h.field r 0 := by simpa using hi
  rw [List.getElem_set, List.getElem_map, List.getElem_range, List.getElem_map,
    List.getElem_range]
  split
  · obtain rfl : k = 1 + i := by omega
    exact hn.self
  · exact hn.field hr (fun _ => by omega) (by rw [hextent, sequenceSize, fieldsSize]; omega)

/-- Overwriting a field of a pair, a string, a vector or a symbol. -/
theorem content_put (hn : FieldSet h.records h.memory r k t g.memory) (hr : r ∈ h.records)
    (hkind : h.memory.kind r ∈ [Kind.pair, .string, .vector, .symbol])
    (hk : h.memory.Settable r k) : g.content r = (h.content r).put k t := by
  have hself : g.field r k = t := hn.self
  have hother : ∀ l, l ≠ k → 9 + 4 * l ≤ h.memory.extent r → g.field r l = h.field r l :=
    fun l hl hend => hn.field hr (fun _ => hl) hend
  have hkind' : g.kind r = h.kind r := hn.kind hr
  simp only [List.mem_cons, List.not_mem_nil, or_false] at hkind
  rcases hkind with hkr | hkr | hkr | hkr <;> unfold content <;> rw [hkind', Heap.kind, hkr] <;>
    simp only [Content.put]
  · have hmem : k ∈ h.memory.referenceFields r := hk.resolve_right (by simp [hkr])
    have hend : ∀ l, l ≤ 1 → 9 + 4 * l ≤ h.memory.extent r := fun l hl => by
      simp only [extent, hkr, fieldsSize]
      omega
    simp only [referenceFields, hkr, List.mem_cons, List.not_mem_nil, or_false] at hmem
    rcases hmem with rfl | rfl
    · rw [hself, hother 1 (by decide) (hend 1 (by decide)), if_pos rfl]
    · rw [hself, hother 0 (by decide) (hend 0 (by decide)), if_neg (by decide)]
  · have hbounds : 1 ≤ k := (hk.resolve_left (by simp [referenceFields, hkr])).2.1
    rw [elements_put hn hr (by simp only [extent, hkr, Heap.field]) hbounds]
  · have hmem : k ∈ h.memory.referenceFields r := hk.resolve_right (by simp [hkr])
    simp only [referenceFields, hkr] at hmem
    rw [elements_put hn hr (by simp only [extent, hkr, Heap.field]) (List.mem_range'_1.mp hmem).1]
  · have hmem : k ∈ h.memory.referenceFields r := hk.resolve_right (by simp [hkr])
    have hextent := symbol_extent hkr
    have hname : g.nameBytes r = h.nameBytes r :=
      (hn.matches_self hr fun _ => hmem).nameBytes hkr
    simp only [referenceFields, hkr, List.mem_cons, List.not_mem_nil, or_false] at hmem
    rw [hname, hother 2 (by omega) (by omega)]
    rcases hmem with rfl | rfl
    · rw [hself, hother 1 (by decide) (by omega), if_pos rfl]
    · rw [hself, hother 0 (by decide) (by omega), if_neg (by decide)]

end Overwritten

end Heap

end ArenaScheme
