import ArenaScheme.Proofs.TypedStore

/-! What each constructor adds to the store: one object with the contents that the constructor was
given, which may have moved since. -/

namespace ArenaScheme

open Memory Heap

/-- The calls that make one record. -/
inductive Construction where
  | integer (value : Int)
  | float (bits : UInt64)
  | character (c : Char)
  | cons (car cdr : Ref)
  | string (text : String)
  | makeString (length : Nat) (fill : Char)
  | makeVector (length : Nat) (fill : Ref)
  | vectorFromRoots (base : Slot)
  | builtin (name : Ref) (index : Nat)
  | closure (closure : Closure)
  | environment (outer : Option Ref)
  | tagged (marker value : Ref)

namespace Construction

def run : Construction → HeapM Ref
  | integer value => HeapM.integer value
  | float bits => HeapM.float bits
  | character c => HeapM.character c
  | cons car cdr => HeapM.cons car cdr
  | string text => HeapM.string text
  | makeString length fill => HeapM.makeString length fill
  | makeVector length fill => HeapM.makeVector length fill
  | vectorFromRoots base => HeapM.vectorFromRoots base
  | builtin name index => HeapM.builtin name index
  | closure c => HeapM.closure c.name c.formals c.env c.body c.arity c.rest
  | environment outer => HeapM.environment outer
  | tagged marker value => HeapM.tagged marker value

/-- The references that a constructor is given. -/
def refs : Construction → List Ref
  | cons a b | tagged a b => [a, b]
  | makeVector _ a | builtin a _ => [a]
  | closure c => [c.name, c.formals, c.env, c.body]
  | environment outer => outer.toList
  | _ => []

/-- How many roots are left. -/
def height (h : Heap) : Construction → Nat
  | vectorFromRoots base => base
  | _ => h.roots.size

/-- The contents that a constructor is given. -/
def content (h : Heap) : Construction → Content
  | integer value => .integer value
  | float bits => .float bits
  | character c => .char c.toNat
  | cons car cdr => .pair car cdr
  | string text => .string (text.toList.map Char.toNat)
  | makeString length fill => .string (List.replicate length fill.toNat)
  | makeVector length fill => .vector (List.replicate length fill)
  | vectorFromRoots base => .vector (h.roots.extract base h.roots.size).toList
  | builtin name index => .builtin name index
  | closure c => .closure c
  | environment outer => .environment (outer.getD absent) absent
  | tagged marker value => .tagged marker value

/-- Whether the numbers have the width they are kept with. -/
def Fits : Construction → Prop
  | integer value => -9223372036854775808 ≤ value ∧ value < 9223372036854775808
  | builtin _ index => index < 4294967296
  | closure c => c.arity < 4294967296
  | _ => True

/-- The references lead to records, the slot is within the root stack, and the numbers fit. -/
structure Valid (h : Heap) (c : Construction) : Prop where
  refs : ∀ r ∈ c.refs, r ∈ h.records
  height : c.height h ≤ h.roots.size
  fits : c.Fits

end Construction

namespace HeapM

variable {h g : Heap} {r : Ref} {n size : Nat} {kind : Kind} {bytes : List UInt8}

theorem exists_of_bind {α β : Type} {x : HeapM α} {f : α → HeapM β} {b : β}
    (hrun : (x >>= f) h = .ok b g) : ∃ a k, x h = .ok a k ∧ f a k = .ok b g := by
  simp only [bind, EStateM.bind] at hrun
  split at hrun
  case h_1 a k hx => exact ⟨a, k, hx, hrun⟩
  case h_2 => cases hrun

theorem checkSize_bind_ok {α : Type} {f : Unit → HeapM α} {a : α}
    (hrun : (checkSize size >>= f) h = .ok a g) : size ≤ maxSize ∧ f () h = .ok a g := by
  unfold checkSize at hrun
  split at hrun
  · cases hrun
  · exact ⟨by omega, hrun⟩

/-- A record that is put where room was made adds one object. -/
theorem extends_put {fields : List Nat} (kept : Vector Ref n) (words : Vector Ref n → List Nat)
    (hs : h.Filled) (hkept : ∀ r ∈ kept, r ∈ h.records)
    (shape : ∀ xs, Shape kind (words xs) bytes size fields)
    (hlead : ∀ xs, ∀ i ∈ fields, ∀ x, (words xs)[i]? = some x → x = absent ∨ x ∈ xs)
    (hrun : (room size kept >>= fun xs => put kind size (words xs) bytes) h = .ok r g) :
    ∃ live place, h.Extends kept.toList h.roots.size live place [(r, g.content r)] g ∧
      (∀ x ∈ kept, place x < 4294967296) ∧
      Written g.memory r kind h.pinning (words (kept.map place)) bytes := by
  have hpos : 0 < h.capacity := Nat.lt_of_lt_of_le hs.nonempty hs.top_le
  obtain ⟨_, live, place, k, -, hr, hlive, ⟨-, hok, hfit⟩ | ⟨-, -, herror⟩⟩ :=
    room_spec size hs.toWellFormed hpos hkept
  · rw [bind_ok hok] at hrun
    have hplaced := k.placed (shape (kept.map place)) hfit
    have hput : EStateM.Result.ok k.top
        { k with memory := k.written kind (words (kept.map place)) bytes, top := k.top + size } =
          .ok r g := hrun
    obtain ⟨rfl, rfl⟩ := EStateM.Result.ok.inj hput
    have hmem : ∀ x ∈ kept, place x ∈ k.records := fun x hx => hr.mem_records (hlive x hx)
    have hlt : ∀ x ∈ kept, place x < 4294967296 := fun x hx =>
      Nat.lt_trans (hr.wellFormed.lt_top (hmem x hx)) hr.wellFormed.top_lt
    have hfollow : kept.map (follow place) = kept.map place :=
      Vector.map_congr_left fun x hx => hr.follow_eq hs.toWellFormed (hlive x hx)
    refine ⟨live, follow place, hr.extends_placed hs.toWellFormed
      (fun r hr => hlive r (Vector.mem_toList_iff.mp hr)) hplaced fun i hi => ?_, fun x hx => ?_, ?_⟩
    · rw [((shape _).layout _ _ _ hplaced.written).2] at hi
      have hget := List.getElem?_eq_getElem ((shape (kept.map place)).inside i hi)
      rcases hlead _ i hi _ hget with habs | hx
      · exact Or.inl (hplaced.written.word (hget.trans (congrArg some habs)) (by decide))
      · obtain ⟨x, hx, heq⟩ := Vector.mem_map.mp hx
        rw [← heq] at hget
        rw [hplaced.written.word hget (hlt x hx)]
        exact Or.inr (hmem x hx)
    · rw [hr.follow_eq hs.toWellFormed (hlive x hx)]
      exact hlt x hx
    · rw [hfollow, ← hr.pinning]
      exact hplaced.written
  · rw [bind_error herror] at hrun
    cases hrun

/-- A record without references. -/
theorem extends_plain {words : List Nat} {content : Content} (hs : h.Filled)
    (shape : Shape kind words bytes size []) (hplain : ∀ place, content.map place = content)
    (hcontent : Written g.memory r kind h.pinning words bytes → g.content r = content)
    (hrun : (room size #v[] >>= fun _ => put kind size words bytes) h = .ok r g) :
    ∃ live place, h.Extends [] h.roots.size live place [(r, content.map place)] g := by
  obtain ⟨live, place, he, -, hw⟩ := extends_put #v[] (fun _ => words) hs mem_empty
    (fun _ => shape) (fun _ _ hi => absurd hi List.not_mem_nil) hrun
  refine ⟨live, place, ?_⟩
  rw [hplain, ← hcontent hw]
  exact he

/-- A record that starts with two references and holds nothing else. -/
theorem extends_two {a b : Ref} {c : Ref → Ref → Content} (hs : h.Filled)
    (ha : a ∈ h.records) (hb : b ∈ h.records) (hfront : kind.front = some (fieldsSize 2, 2))
    (hcontent : ∀ x y, x < 4294967296 → y < 4294967296 →
      Written g.memory r kind h.pinning [x, y] [] → g.content r = c x y)
    (hrun : (room (fieldsSize 2) #v[a, b] >>= fun xs =>
      put kind (fieldsSize 2) (xs.toList ++ []) []) h = .ok r g) :
    ∃ live place, h.Extends [a, b] h.roots.size live place [(r, c (place a) (place b))] g := by
  have hkept : ∀ x ∈ #v[a, b], x ∈ h.records := by
    intro x hx
    have : x = a ∨ x = b := by simpa using hx
    rcases this with rfl | rfl <;> assumption
  obtain ⟨live, place, he, hlt, hw⟩ := extends_put #v[a, b] (fun xs => xs.toList ++ []) hs hkept
    (fun xs => .of_front hfront (by simp [fieldsSize]) (by simp))
    (fun xs i _ x hx => Or.inr (by simpa using List.mem_of_getElem? hx)) hrun
  refine ⟨live, place, ?_⟩
  rw [← hcontent _ _ (hlt a (by simp)) (hlt b (by simp)) (by simpa using hw)]
  exact he

theorem extends_builtin {name index : Nat} (hs : h.Filled) (hname : name ∈ h.records)
    (hindex : index < 4294967296) (hrun : builtin name index h = .ok r g) :
    ∃ live place, h.Extends [name] h.roots.size live place [(r, .builtin (place name) index)] g := by
  have hkept : ∀ x ∈ #v[name], x ∈ h.records := by simpa using hname
  have hlead : ∀ xs : Vector Ref 1, ∀ i ∈ List.range 1, ∀ x,
      (xs.toList ++ [index])[i]? = some x → x = absent ∨ x ∈ xs := by
    intro xs i hi x hx
    rw [List.getElem?_append_left (by simpa using hi)] at hx
    exact Or.inr (by simpa using List.mem_of_getElem? hx)
  rw [builtin_eq] at hrun
  obtain ⟨live, place, he, hlt, hw⟩ := extends_put #v[name] (fun xs => xs.toList ++ [index]) hs hkept
    (fun xs => .of_front rfl (by simp [fieldsSize]) (by simp)) hlead hrun
  refine ⟨live, place, ?_⟩
  rw [← content_builtin (hlt name (by simp)) hindex (by simpa using hw)]
  exact he

theorem extends_closure {c : Closure} (hs : h.Filled)
    (hrefs : ∀ x ∈ [c.name, c.formals, c.env, c.body], x ∈ h.records)
    (harity : c.arity < 4294967296)
    (hrun : closure c.name c.formals c.env c.body c.arity c.rest h = .ok r g) :
    ∃ live place, h.Extends [c.name, c.formals, c.env, c.body] h.roots.size live place
      [(r, (Content.closure c).map place)] g := by
  have hkept : ∀ x ∈ #v[c.name, c.formals, c.env, c.body], x ∈ h.records := fun x hx =>
    hrefs x (by simpa using hx)
  have hlead : ∀ xs : Vector Ref 4, ∀ i ∈ List.range 4, ∀ x,
      (xs.toList ++ [c.arity])[i]? = some x → x = absent ∨ x ∈ xs := by
    intro xs i hi x hx
    rw [List.getElem?_append_left (by simpa using hi)] at hx
    exact Or.inr (by simpa using List.mem_of_getElem? hx)
  rw [closure_eq] at hrun
  obtain ⟨live, place, he, hlt, hw⟩ := extends_put #v[c.name, c.formals, c.env, c.body]
    (fun xs => xs.toList ++ [c.arity]) hs hkept
    (fun xs => .of_front rfl (by simp [closureSize, fieldsSize]) (by simp)) hlead hrun
  refine ⟨live, place, ?_⟩
  have hmoved : ∀ x ∈ [place c.name, place c.formals, place c.env, place c.body],
      x < 4294967296 := by
    intro x hx
    have hx' : x ∈ [c.name, c.formals, c.env, c.body].map place := hx
    obtain ⟨y, hy, rfl⟩ := List.mem_map.mp hx'
    exact hlt y (by simpa using hy)
  have hcontent := content_closure (h := g) (c := { c with
    name := place c.name, formals := place c.formals, env := place c.env, body := place c.body })
    hmoved harity (by simpa using hw)
  rw [Content.map, ← hcontent]
  exact he

theorem extends_environment {outer : Option Ref} (hs : h.Filled)
    (houter : ∀ x ∈ outer, x ∈ h.records) (hrun : environment outer h = .ok r g) :
    ∃ live place, h.Extends outer.toList h.roots.size live place
      [(r, .environment (place (outer.getD absent)) (place absent))] g := by
  have hkept : ∀ x ∈ #v[outer.getD null], x ∈ h.records := by
    intro x hx
    obtain rfl : x = outer.getD null := by simpa using hx
    cases outer with
    | none => exact hs.null_mem
    | some x => exact houter x rfl
  have hlead : ∀ xs : Vector Ref 1, ∀ i ∈ List.range 2, ∀ x,
      [if outer.isSome then xs[0] else absent, absent][i]? = some x → x = absent ∨ x ∈ xs := by
    intro xs i hi x hx
    have hx' := List.mem_of_getElem? hx
    simp only [List.mem_cons, List.not_mem_nil, or_false] at hx'
    rcases hx' with rfl | rfl
    · cases outer with
      | none => exact Or.inl rfl
      | some y => exact Or.inr (Vector.getElem_mem _)
    · exact Or.inl rfl
  rw [environment_eq] at hrun
  obtain ⟨live, place, he, hlt, hw⟩ := extends_put #v[outer.getD null]
    (fun xs => [if outer.isSome then xs[0] else absent, absent]) hs hkept
    (fun xs => .of_front rfl rfl (Nat.le_refl _)) hlead hrun
  refine ⟨live, place, ?_⟩
  have hcontent : g.content r = .environment (place (outer.getD absent)) absent := by
    cases outer with
    | none =>
      rw [Option.getD_none, he.absent]
      exact content_environment (by decide) hw
    | some x => exact content_environment (hlt x (by simp)) (by simpa using hw)
  rw [he.absent, ← hcontent]
  refine he.weaken fun x hx => ?_
  cases outer with
  | none => cases hx
  | some y => exact Or.inr hx

theorem length_lt_of_size {length : Nat} (hsize : sequenceSize length ≤ maxSize) :
    length < 4294967296 := by
  simp only [sequenceSize, fieldsSize, maxSize] at hsize
  omega

theorem char_lt (c : Char) : c.toNat < 4294967296 := by
  have hvalid := c.valid
  unfold UInt32.isValidChar Nat.isValidChar at hvalid
  change c.val.toNat < _
  omega

theorem extends_codes {codes : List Nat} (hs : h.Filled) (hcodes : ∀ x ∈ codes, x < 4294967296)
    (hrun : (checkSize (sequenceSize codes.length) >>= fun _ =>
      room (sequenceSize codes.length) #v[] >>= fun _ =>
        put .string (sequenceSize codes.length) (codes.length :: codes) []) h = .ok r g) :
    ∃ live place, h.Extends [] h.roots.size live place [(r, (Content.string codes).map place)] g := by
  obtain ⟨hsize, hrun⟩ := checkSize_bind_ok hrun
  exact extends_plain hs (.string codes hsize) (fun _ => rfl)
    (content_string (length_lt_of_size hsize) hcodes) hrun

theorem extends_makeVector {length : Nat} {fill : Ref} (hs : h.Filled) (hfill : fill ∈ h.records)
    (hrun : makeVector length fill h = .ok r g) :
    ∃ live place, h.Extends [fill] h.roots.size live place
      [(r, (Content.vector (List.replicate length fill)).map place)] g := by
  have hkept : ∀ x ∈ #v[fill], x ∈ h.records := by simpa using hfill
  rw [makeVector_eq] at hrun
  obtain ⟨hsize, hrun⟩ := checkSize_bind_ok hrun
  have hshape : ∀ xs : Vector Ref 1, Shape .vector (length :: List.replicate length xs[0]) []
      (sequenceSize length) (List.range' 1 length) := fun xs => by
    have hshape := Shape.vector (List.replicate length xs[0])
    rw [List.length_replicate] at hshape
    exact hshape hsize
  have hlead : ∀ xs : Vector Ref 1, ∀ i ∈ List.range' 1 length, ∀ x,
      (length :: List.replicate length xs[0])[i]? = some x → x = absent ∨ x ∈ xs := by
    intro xs i hi x hx
    obtain ⟨i, rfl⟩ : ∃ j, i = j + 1 := ⟨i - 1, by have := List.mem_range'_1.mp hi; omega⟩
    rw [List.getElem?_cons_succ] at hx
    rw [List.eq_of_mem_replicate (List.mem_of_getElem? hx)]
    exact Or.inr (Vector.getElem_mem _)
  obtain ⟨live, place, he, hlt, hw⟩ := extends_put #v[fill]
    (fun xs => length :: List.replicate length xs[0]) hs hkept hshape hlead hrun
  have hcontent : g.content r = .vector (List.replicate length (place fill)) := by
    refine content_vector (by simpa using length_lt_of_size hsize) (fun x hx => ?_)
      (by simpa using hw)
    rw [List.eq_of_mem_replicate hx]
    exact hlt fill (by simp)
  refine ⟨live, place, ?_⟩
  rw [Content.map, List.map_replicate, ← hcontent]
  exact he

theorem extends_vectorFromRoots {base : Slot} (hs : h.Filled) (hbase : base ≤ h.roots.size)
    (hrun : vectorFromRoots base h = .ok r g) :
    ∃ live place, h.Extends [] base live place
      [(r, (Content.vector (h.roots.extract base h.roots.size).toList).map place)] g := by
  have hpos : 0 < h.capacity := Nat.lt_of_lt_of_le hs.nonempty hs.top_le
  rw [vectorFromRoots_eq, rootCount_bind] at hrun
  obtain ⟨hsize, hrun⟩ := checkSize_bind_ok hrun
  obtain ⟨_, live, place, k, -, hr, -, ⟨-, hok, hfit⟩ | ⟨-, -, herror⟩⟩ :=
    room_spec (sequenceSize (h.roots.size - base)) hs.toWellFormed hpos mem_empty
  · have hroots : (k.roots.extract base (base + (h.roots.size - base))).toList =
        (h.roots.extract base h.roots.size).toList.map (follow place) := by
      have hfollow : k.roots = h.roots.map (follow place) := by
        rw [hr.roots]
        exact Array.map_congr_left fun x hx => (hr.follow_eq hs.toWellFormed (hr.root x hx)).symm
      rw [hfollow, Nat.add_sub_cancel' hbase, ← Array.map_extract, Array.toList_map]
    generalize hxs : (k.roots.extract base (base + (h.roots.size - base))).toList = xs at hroots
    have hlength : xs.length = h.roots.size - base := by
      rw [hroots, List.length_map, Array.length_toList, Array.size_extract]
      omega
    have hmem : ∀ x ∈ xs, x ∈ k.records := by
      intro x hx
      rw [← hxs, Array.mem_toList_iff] at hx
      obtain ⟨i, hi, rfl⟩ := Array.mem_iff_getElem.mp hx
      rw [Array.getElem_extract]
      exact hr.wellFormed.root _ (Array.getElem_mem _)
    have hlt : ∀ x ∈ xs, x < 4294967296 := fun x hx =>
      Nat.lt_trans (hr.wellFormed.lt_top (hmem x hx)) hr.wellFormed.top_lt
    rw [bind_ok hok, rootsBetween_bind, hxs, put_bind, ← hlength] at hrun
    rw [← hlength] at hsize hfit
    have hplaced := k.placed (.vector xs hsize) hfit
    generalize k.written .vector (xs.length :: xs) [] = m at hplaced hrun
    have he : h.Extends [] h.roots.size live (follow place) _ _ :=
      hr.extends_placed hs.toWellFormed (fun _ hx => nomatch hx) hplaced ?_
    · obtain ⟨rfl, rfl⟩ := EStateM.Result.ok.inj hrun
      have hcontent := content_vector (length_lt_of_size hsize) hlt
        (h := { k with memory := m, top := k.top + sequenceSize xs.length }) hplaced.written
      refine ⟨live, follow place, ?_⟩
      rw [Content.map, ← hroots, ← hcontent]
      exact he.release hbase
    · intro i hi
      rw [((Shape.vector xs hsize).layout _ _ _ hplaced.written).2] at hi
      obtain ⟨i, rfl⟩ : ∃ j, i = j + 1 := ⟨i - 1, by have := List.mem_range'_1.mp hi; omega⟩
      have hi' : i < xs.length := by have := List.mem_range'_1.mp hi; omega
      have hget : (xs.length :: xs)[i + 1]? = some xs[i] := by simp [hi']
      rw [hplaced.written.word hget (hlt _ (List.getElem_mem hi'))]
      exact Or.inr (hmem _ (List.getElem_mem hi'))
  · rw [bind_error herror] at hrun
    cases hrun

end HeapM

theorem HeapM.extends_cons {h g : Heap} {r a b : Ref} (hs : h.Filled) (ha : a ∈ h.records)
    (hb : b ∈ h.records) (hrun : HeapM.cons a b h = .ok r g) :
    ∃ live place, h.Extends [a, b] h.roots.size live place [(r, .pair (place a) (place b))] g := by
  rw [HeapM.cons_eq] at hrun
  exact HeapM.extends_two hs ha hb rfl (fun _ _ => content_pair) hrun

/-- A constructor adds one object with the contents it was given. -/
theorem Construction.extends {h g : Heap} {r : Ref} {c : Construction} (hs : h.Filled)
    (hc : c.Valid h) (hrun : c.run h = .ok r g) :
    ∃ kept place, h.Extends c.refs (c.height h) kept place [(r, (c.content h).map place)] g := by
  have hrefs := hc.refs
  cases c with
  | integer value =>
    rw [Construction.run, HeapM.integer_eq] at hrun
    exact HeapM.extends_plain hs (.of_front rfl rfl (Nat.zero_le _)) (fun _ => rfl)
      (content_integer hc.fits) hrun
  | float bits =>
    rw [Construction.run, HeapM.float_eq] at hrun
    exact HeapM.extends_plain hs (.of_front rfl rfl (Nat.zero_le _)) (fun _ => rfl) content_float hrun
  | character c =>
    rw [Construction.run, HeapM.character_eq] at hrun
    exact HeapM.extends_plain hs (.of_front rfl rfl (Nat.zero_le _)) (fun _ => rfl)
      (content_char (HeapM.char_lt c)) hrun
  | cons a b =>
    exact HeapM.extends_cons hs (hrefs a (by simp [refs])) (hrefs b (by simp [refs])) hrun
  | tagged a b =>
    rw [Construction.run, HeapM.tagged_eq] at hrun
    exact HeapM.extends_two (c := .tagged) hs (hrefs a (by simp [refs]))
      (hrefs b (by simp [refs])) rfl (fun _ _ => content_tagged) hrun
  | string text =>
    rw [Construction.run, HeapM.string_eq] at hrun
    refine HeapM.extends_codes hs (fun x hx => ?_) hrun
    obtain ⟨c, -, rfl⟩ := List.mem_map.mp hx
    exact HeapM.char_lt c
  | makeString length fill =>
    rw [Construction.run, HeapM.makeString_eq] at hrun
    have hcodes : ∀ x ∈ List.replicate length fill.toNat, x < 4294967296 := fun x hx => by
      rw [List.eq_of_mem_replicate hx]
      exact HeapM.char_lt fill
    exact HeapM.extends_codes hs hcodes (by simpa using hrun)
  | makeVector length fill => exact HeapM.extends_makeVector hs (hrefs fill (by simp [refs])) hrun
  | vectorFromRoots base => exact HeapM.extends_vectorFromRoots hs hc.height hrun
  | builtin name index =>
    exact HeapM.extends_builtin hs (hrefs name (by simp [refs])) hc.fits hrun
  | closure c => exact HeapM.extends_closure hs hrefs hc.fits hrun
  | environment outer =>
    exact HeapM.extends_environment hs (fun x hx => hrefs x (Option.mem_toList.mpr hx)) hrun

end ArenaScheme
