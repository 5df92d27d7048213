import ArenaScheme.Heap.Object
import ArenaScheme.Proofs.Room

/-! New records. Every constructor first makes room, with the references it was given kept alive,
and then writes a whole record at the top. Where the references correspond and fit, so do the new
records. -/

namespace ArenaScheme

open Memory Heap

variable {α β : Type} {h : Heap} {kind : Kind} {refs words : List Nat} {bytes : List UInt8}
  {m : Memory} {base count k l size x : Nat} {write : Ref → Memory → Memory} {rules : Rules}

/-- The memory with a record written at the top. -/
def Heap.written (h : Heap) (kind : Kind) (words : List Nat) (bytes : List UInt8) : Memory :=
  (h.memory.putHeader h.top kind h.pinning).writeRecord h.top words bytes

namespace HeapM

/-- Puts a record of `size` bytes on top. -/
def put (kind : Kind) (size : Nat) (words : List Nat) (bytes : List UInt8) : HeapM Ref :=
  modifyGet fun h => (h.top, { h with top := h.top + size, memory := h.written kind words bytes })

theorem put_bind (kind : Kind) (size : Nat) (words : List Nat) (bytes : List UInt8)
    (f : Ref → HeapM α) (h : Heap) :
    (put kind size words bytes >>= f) h =
      f h.top { h with memory := h.written kind words bytes, top := h.top + size } := rfl

section Equations

variable {n : Nat} {α : Type} {kind : Kind} {size : Nat} {kept : Vector Ref n}

theorem allocate_eq :
    allocate kind size kept = (do
      let kept ← room size kept
      let r ← modifyGet fun h =>
        (h.top,
          { h with top := h.top + size, memory := h.memory.putHeader h.top kind h.pinning })
      return (r, kept)) := by
  simp only [allocate, room, bind_assoc]
  refine bind_congr fun h => ?_
  split
  · rfl
  · simp only [pure_bind]

theorem modifyMemory_bind (f : Memory → Memory) (g : Unit → HeapM α) (h : Heap) :
    (modifyMemory f >>= g) h = g () { h with memory := f h.memory } := rfl

theorem modifyGet_bind (f : Heap → β × Heap) (g : β → HeapM α) (h : Heap) :
    ((modifyGet f : HeapM β) >>= g) h = g (f h).1 (f h).2 := rfl

/-- To allocate a record and write it is to make room and put it there. -/
theorem allocate_bind {write : Ref × Vector Ref n → Memory → Memory}
    {f : Ref × Vector Ref n → HeapM α} (words : Vector Ref n → List Nat) (bytes : List UInt8)
    (hwrite : ∀ p m, write p m = m.writeRecord p.1 (words p.2) bytes) :
    (allocate kind size kept >>= fun p => modifyMemory (write p) >>= fun _ => f p) =
      room size kept >>= fun kept => put kind size (words kept) bytes >>= fun r => f (r, kept) := by
  simp only [allocate_eq, bind_assoc, pure_bind]
  refine bind_congr fun kept => funext fun h => ?_
  rw [modifyGet_bind, modifyMemory_bind, hwrite, put, modifyGet_bind, written]

theorem allocate_put {write : Ref × Vector Ref n → Memory → Memory}
    (words : Vector Ref n → List Nat) (bytes : List UInt8)
    (hwrite : ∀ p m, write p m = m.writeRecord p.1 (words p.2) bytes) :
    (allocate kind size kept >>= fun p => modifyMemory (write p) >>= fun _ => pure p.1) =
      room size kept >>= fun kept => put kind size (words kept) bytes := by
  rw [allocate_bind words bytes hwrite]
  simp only [bind_pure]

theorem reserve_bind {f : Ref → HeapM α} (words : List Nat) (bytes : List UInt8)
    (hwrite : ∀ r m, write r m = m.writeRecord r words bytes) :
    (reserve kind size >>= fun r => modifyMemory (write r) >>= fun _ => f r) =
      room size #v[] >>= fun _ => put kind size words bytes >>= f := by
  simp only [reserve, bind_assoc, pure_bind]
  exact allocate_bind (f := fun p => f p.1) (fun _ => words) bytes fun p => hwrite p.1

theorem reserve_put (words : List Nat) (bytes : List UInt8)
    (hwrite : ∀ r m, write r m = m.writeRecord r words bytes) :
    (reserve kind size >>= fun r => modifyMemory (write r) >>= fun _ => pure r) =
      room size #v[] >>= fun _ => put kind size words bytes := by
  rw [reserve_bind words bytes hwrite]
  simp only [bind_pure]

theorem modifyMemory_comp (f g : Memory → Memory) (x : HeapM α) :
    (modifyMemory f >>= fun _ => modifyMemory g >>= fun _ => x) =
      modifyMemory (fun m => g (f m)) >>= fun _ => x := rfl

theorem writeRecord_fill (m : Memory) (r value length : Nat) :
    (m.setField r 0 length).fillWords (fieldAddress r 1) value length =
      m.writeRecord r (length :: List.replicate length value) [] := by
  simp only [fillWords_eq, writeRecord, writeWords_cons, writeBytes, Memory.setField,
    fieldAddress_eq, Nat.mul_zero, Nat.mul_one, Nat.add_zero]

theorem integer_eq (value : Int) :
    integer value =
      let residue := (value % 18446744073709551616).toNat
      room (fieldsSize 2) #v[] >>= fun _ =>
        put .integer (fieldsSize 2) [residue, residue / 4294967296] [] :=
  reserve_put _ [] fun _ _ => rfl

theorem float_eq (bits : UInt64) :
    float bits = room (fieldsSize 2) #v[] >>= fun _ =>
      put .float (fieldsSize 2) [bits.toNat, bits.toNat / 4294967296] [] :=
  reserve_put _ [] fun _ _ => rfl

theorem character_eq (c : Char) :
    character c = room (fieldsSize 1) #v[] >>= fun _ => put .char (fieldsSize 1) [c.toNat] [] :=
  reserve_put _ [] fun _ _ => rfl

theorem cons_eq (car cdr : Ref) :
    cons car cdr = room (fieldsSize 2) #v[car, cdr] >>= fun kept =>
      put .pair (fieldsSize 2) (kept.toList ++ []) [] := by
  simp only [List.append_nil]
  exact allocate_put _ [] fun _ _ => rfl

theorem tagged_eq (marker value : Ref) :
    tagged marker value = room (fieldsSize 2) #v[marker, value] >>= fun kept =>
      put .tagged (fieldsSize 2) (kept.toList ++ []) [] := by
  simp only [List.append_nil]
  exact allocate_put _ [] fun _ _ => rfl

theorem builtin_eq (name : Ref) (index : Nat) :
    builtin name index = room (fieldsSize 2) #v[name] >>= fun kept =>
      put .builtin (fieldsSize 2) (kept.toList ++ [index]) [] := by
  refine allocate_put (fun kept => kept.toList ++ [index]) [] fun p m => ?_
  have hkept : p.2.toList = [p.2[0]] :=
    List.ext_getElem (by simp) fun i _ hi => by
      obtain rfl : i = 0 := by simpa using hi
      simp
  rw [hkept]
  rfl

theorem environment_eq (outer : Option Ref) :
    environment outer = room (fieldsSize 2) #v[outer.getD null] >>= fun kept =>
      put .environment (fieldsSize 2)
        [if outer.isSome then getElem kept 0 Nat.zero_lt_one else absent, absent] [] :=
  allocate_put _ [] fun _ _ => rfl

theorem closure_eq (name formals env body : Ref) (arity : Nat) (rest : Bool) :
    closure name formals env body arity rest =
      room closureSize #v[name, formals, env, body] >>= fun kept =>
        put .closure closureSize (kept.toList ++ [arity]) [if rest then 1 else 0] := by
  refine allocate_put _ _ fun p m => ?_
  rw [writeRecord, List.length_append, Vector.length_toList]
  rfl

theorem string_eq (text : String) :
    string text =
      let codes := text.toList.map Char.toNat
      checkSize (sequenceSize codes.length) >>= fun _ =>
        room (sequenceSize codes.length) #v[] >>= fun _ =>
          put .string (sequenceSize codes.length) (codes.length :: codes) [] := by
  refine bind_congr fun _ => ?_
  refine reserve_put ((text.toList.map Char.toNat).length :: text.toList.map Char.toNat) [] ?_
  intro r m
  simp only [writeRecord, writeBytes]

theorem makeString_eq (length : Nat) (fill : Char) :
    makeString length fill =
      checkSize (sequenceSize length) >>= fun _ => room (sequenceSize length) #v[] >>= fun _ =>
        put .string (sequenceSize length) (length :: List.replicate length fill.toNat) [] := by
  refine bind_congr fun _ => ?_
  simp only [setField, modifyMemory_comp]
  exact reserve_put _ [] fun r m => writeRecord_fill m r _ _

theorem makeVector_eq (length : Nat) (fill : Ref) :
    makeVector length fill =
      checkSize (sequenceSize length) >>= fun _ =>
        room (sequenceSize length) #v[fill] >>= fun kept =>
          put .vector (sequenceSize length)
            (length :: List.replicate length (getElem kept 0 Nat.zero_lt_one)) [] := by
  refine bind_congr fun _ => ?_
  simp only [setField, modifyMemory_comp]
  exact allocate_put _ [] fun p m => writeRecord_fill m p.1 _ _

theorem rootsBetween_bind (start stop : Slot) (g : List Ref → HeapM α) (h : Heap) :
    (rootsBetween start stop >>= g) h = g (h.roots.extract start stop).toList h := rfl

theorem vectorFromRoots_eq (base : Slot) :
    vectorFromRoots base = (do
      let length := (← rootCount) - base
      checkSize (sequenceSize length)
      let _ ← room (sequenceSize length) #v[]
      let elements ← rootsBetween base (base + length)
      let r ← put .vector (sequenceSize length) (length :: elements) []
      releaseRoots base
      return r) := by
  simp only [vectorFromRoots, reserve, allocate_eq, bind_assoc, pure_bind]
  refine bind_congr fun _ => bind_congr fun _ => bind_congr fun _ => funext fun h => ?_
  rw [modifyGet_bind, rootsBetween_bind, modifyMemory_bind, rootsBetween_bind, put, modifyGet_bind]
  simp only [written, writeRecord, writeBytes]

end Equations

end HeapM

/-- A record of this kind with these contents takes `size` bytes, and its references stand in the
fields `refs`. -/
structure Shape (kind : Kind) (words : List Nat) (bytes : List UInt8) (size : Nat)
    (refs : List Nat) : Prop where
  size_eq : size = 5 + 4 * words.length + bytes.length
  common : ∀ p ∈ fixtures, kind ≠ p.2
  inside : ∀ k ∈ refs, k < words.length
  layout : ∀ m r pinned, Written m r kind pinned words bytes →
    m.extent r = size ∧ m.referenceFields r = refs

/-- Whether corresponding references may stand in field `k` of new records. -/
def View.Holds (v : View) (kind : Kind) (k x y : Nat) : Prop :=
  (x = absent ∧ y = absent ∧ kind.mayBeAbsent k = true) ∨
    (v.Rel x y ∧ kind.Fits v.rules k v.left.top (v.left.memory.kind x) x)

/-- The record at `r` is the newest one, and nothing leads to it yet. -/
structure Heap.Fresh (h : Heap) (r : Nat) : Prop where
  newest : ∀ q ∈ h.records, q ≤ r
  unshared : ∀ q ∈ h.records, ∀ k ∈ h.memory.referenceFields q, h.memory.field q k ≠ r
  symbols : h.symbols ≠ r
  roots : ∀ q ∈ h.roots, q ≠ r

/-- What holds after corresponding records of the given kind have been put on top. -/
structure Built (v : View) (kind : Kind) (w : View) (r s : Nat) : Prop where
  rel : w.Rel r s
  kind_eq : w.left.memory.kind r = kind
  fresh : w.left.Fresh r
  old : ∀ a b, v.Rel a b → w.Rel a b ∧ w.left.memory.kind a = v.left.memory.kind a ∧ a < r
  roots : w.left.roots.size = v.left.roots.size

/-- What holds after a constructor. -/
structure Made (v : View) (kind : Kind) (w : View) (r s : Nat) : Prop where
  rel : w.Rel r s
  kind_eq : w.left.memory.kind r = kind
  roots : w.left.roots.size = v.left.roots.size

theorem Heap.Pushed.fresh (hm : h.Pushed rules kind words bytes size m) (hs : h.Sound rules) :
    { h with memory := m, top := h.top + size }.Fresh h.top := by
  have hne : ∀ q, q = absent ∨ q ∈ h.records → q ≠ h.top := by
    rintro q (rfl | hq)
    · have hfit := hm.fit
      have hmax := hs.wf.capacity_le
      have hextent := five_le_extent m h.top
      rw [hm.extent] at hextent
      unfold maxSize at hmax
      have hlt : h.top < 4294967295 := by omega
      exact Nat.ne_of_gt hlt
    · exact Nat.ne_of_lt (hs.wf.lt_top hq)
  refine ⟨fun q hq => ?_, fun q hq k hk => hne _ ?_, hne _ hs.wf.symbols,
    fun q hq => hne _ (Or.inr (hs.wf.root q hq))⟩
  · rw [hm.records hs.wf] at hq
    rcases List.mem_append.mp hq with hq | hq
    · exact Nat.le_of_lt (hs.wf.lt_top hq)
    · exact Nat.le_of_eq (List.mem_singleton.mp hq)
  · rw [hm.records hs.wf] at hq
    change m.field q k = absent ∨ m.field q k ∈ h.records
    rcases List.mem_append.mp hq with hq | hq
    · have hbody := hm.sameBody hs.wf hq
      have hk' : k ∈ h.memory.referenceFields q := hbody.referenceFields ▸ hk
      rw [hbody.reference hk']
      exact hs.wf.reference q hq k hk'
    · obtain rfl := List.mem_singleton.mp hq
      exact (hm.allowed k hk).imp And.left And.left

theorem Memory.Written.word {r : Nat} {pinned : Bool} (h : Written m r kind pinned words bytes)
    (hk : words[k]? = some x) (hx : x < 4294967296) : m.field r k = x := by
  rw [h.field k x hk, Nat.mod_eq_of_lt hx]

theorem Heap.placed (h : Heap) (shape : Shape kind words bytes size refs)
    (hfit : h.top + size ≤ h.capacity) :
    h.Placed kind words bytes size (h.written kind words bytes) := by
  have hsize : h.top + (5 + 4 * words.length + bytes.length) ≤ h.memory.size := by
    rw [← shape.size_eq]
    exact hfit
  have hwritten : Written (h.written kind words bytes) h.top kind h.pinning words bytes :=
    written_writeRecord h.memory h.top kind h.pinning words bytes hsize
  exact ⟨fun i hi => byte_writeRecord_of_lt _ _ _ _ _ _ i hi hsize, size_writeRecord .., hwritten,
    (shape.layout _ _ _ hwritten).1, hfit⟩

theorem Heap.Sound.pushed (hs : h.Sound rules) (shape : Shape kind words bytes size refs)
    (hfit : h.top + size ≤ h.capacity)
    (hrefs : ∀ k ∈ refs, ∀ x, words[k]? = some x →
      (x = absent ∧ kind.mayBeAbsent k = true) ∨
        (x ∈ h.records ∧ kind.Fits rules k h.top (h.memory.kind x) x)) :
    h.Pushed rules kind words bytes size (h.written kind words bytes) := by
  have hplaced := h.placed shape hfit
  refine ⟨hplaced, shape.common, fun k hk => ?_⟩
  rw [(shape.layout _ _ _ hplaced.written).2] at hk
  obtain ⟨x, hget⟩ : ∃ x, words[k]? = some x := ⟨_, List.getElem?_eq_getElem (shape.inside k hk)⟩
  have hcases := hrefs k hk x hget
  have hlt : x < 4294967296 := by
    rcases hcases with ⟨habs, -⟩ | ⟨hmem, -⟩
    · rw [habs]
      decide
    · exact Nat.lt_trans (hs.wf.lt_top hmem) hs.wf.top_lt
  rw [hplaced.written.word hget hlt]
  exact hcases

/-- The size of the records of a kind and how many references they start with, if that is the same
for all of them. -/
def Kind.front : Kind → Option (Nat × Nat)
  | .char => some (fieldsSize 1, 0)
  | .integer | .float => some (fieldsSize 2, 0)
  | .builtin => some (fieldsSize 2, 1)
  | .pair | .environment | .tagged => some (fieldsSize 2, 2)
  | .binding => some (fieldsSize 4, 4)
  | .closure => some (closureSize, 4)
  | _ => none

namespace Shape

theorem of_front (hfront : kind.front = some (size, count))
    (hsize : size = 5 + 4 * words.length + bytes.length) (hcount : count ≤ words.length) :
    Shape kind words bytes size (List.range count) := by
  refine ⟨hsize, ?_, fun k hk => Nat.lt_of_lt_of_le (List.mem_range.mp hk) hcount,
    fun m r pinned h => ?_⟩
  · rintro p hp rfl
    simp only [fixtures, List.mem_cons, List.not_mem_nil, or_false] at hp
    rcases hp with rfl | rfl | rfl | rfl <;> cases hfront
  · unfold extent referenceFields
    rw [h.kind]
    cases kind <;> cases hfront <;> exact ⟨rfl, rfl⟩

theorem string (codes : List Nat) (hsize : sequenceSize codes.length ≤ maxSize) :
    Shape .string (codes.length :: codes) [] (sequenceSize codes.length) [] := by
  refine ⟨by simp [sequenceSize, fieldsSize]; omega, by decide, by simp, fun m r pinned h => ?_⟩
  have hlength : m.field r 0 = codes.length :=
    h.word rfl (by simp only [sequenceSize, fieldsSize, maxSize] at hsize; omega)
  simp only [extent, referenceFields, h.kind, hlength, and_self]

theorem vector (elements : List Nat) (hsize : sequenceSize elements.length ≤ maxSize) :
    Shape .vector (elements.length :: elements) [] (sequenceSize elements.length)
      (List.range' 1 elements.length) := by
  refine ⟨by simp [sequenceSize, fieldsSize]; omega, by decide, ?_, fun m r pinned h => ?_⟩
  · intro k hk
    have := List.mem_range'_1.mp hk
    simp only [List.length_cons]
    omega
  · have hlength : m.field r 0 = elements.length :=
      h.word rfl (by simp only [sequenceSize, fieldsSize, maxSize] at hsize; omega)
    simp only [extent, referenceFields, h.kind, hlength, and_self]

theorem symbol (digest : Nat) (name : List UInt8) (hsize : symbolSize name.length ≤ maxSize) :
    Shape .symbol [absent, absent, digest, name.length] name (symbolSize name.length) [0, 1] := by
  refine ⟨by simp [symbolSize, fieldsSize], by decide, by simp, fun m r pinned h => ?_⟩
  have hlength : m.field r 3 = name.length :=
    h.word rfl (by simp only [symbolSize, fieldsSize, maxSize] at hsize; omega)
  simp only [extent, referenceFields, h.kind, hlength, and_self]

end Shape

theorem Corr.holds_lt {v : View} {y : Nat} (hv : Corr v) (h : v.Holds kind k x y) :
    x < 4294967296 ∧ y < 4294967296 := by
  rcases h with ⟨rfl, rfl, -⟩ | ⟨hrel, -⟩
  · decide
  · exact ⟨Nat.lt_trans (hv.left.wf.lt_top (hv.mem_left hrel.1)) hv.left.wf.top_lt,
      Nat.lt_trans (hv.right.wf.lt_top (hv.mem_right hrel.1)) hv.right.wf.top_lt⟩

section Put

variable {v : View} {n size : Nat} {kind : Kind} {words words' : List Nat} {bytes : List UInt8}
  {refs : List Nat}

/-- Records with corresponding contents that are put on top correspond. -/
theorem Corr.pushed (hv : Corr v) (shape : Shape kind words bytes size refs)
    (shape' : Shape kind words' bytes size refs)
    (hfit : v.left.top + size ≤ v.left.capacity) (hfit' : v.right.top + size ≤ v.right.capacity)
    (href : ∀ k ∈ refs, ∀ x y, words[k]? = some x → words'[k]? = some y → v.Holds kind k x y)
    (hplain : ∀ k, k ∉ refs → words'[k]? = words[k]?) :
    v.left.Pushed v.rules kind words bytes size (v.left.written kind words bytes) ∧
      v.right.Pushed v.rules kind words' bytes size (v.right.written kind words' bytes) ∧
      Matches v.Rel (v.left.written kind words bytes) v.left.top
        (v.right.written kind words' bytes) v.right.top := by
  have hlength : words'.length = words.length := by
    have := shape.size_eq
    have := shape'.size_eq
    omega
  have hget : ∀ k ∈ refs, ∃ x y, words[k]? = some x ∧ words'[k]? = some y ∧ v.Holds kind k x y := by
    intro k hk
    have hx := List.getElem?_eq_getElem (shape.inside k hk)
    have hy := List.getElem?_eq_getElem (shape'.inside k hk)
    exact ⟨_, _, hx, hy, href k hk _ _ hx hy⟩
  have hl := hv.left.pushed shape hfit fun k hk x hx => by
    obtain ⟨x', y, hx', hy, hholds⟩ := hget k hk
    obtain rfl : x = x' := Option.some.inj (hx.symm.trans hx')
    rcases hholds with ⟨habs, -, hmay⟩ | ⟨hrel, hfits⟩
    · exact Or.inl ⟨habs, hmay⟩
    · exact Or.inr ⟨hv.mem_left hrel.1, hfits⟩
  have hr := hv.right.pushed shape' hfit' fun k hk y hy => by
    obtain ⟨x, y', hx, hy', hholds⟩ := hget k hk
    obtain rfl : y = y' := Option.some.inj (hy.symm.trans hy')
    rcases hholds with ⟨-, habs, hmay⟩ | ⟨hrel, hfits⟩
    · exact Or.inl ⟨habs, hmay⟩
    · have hx := hv.left.wf.lt_top (hv.mem_left hrel.1)
      have hy := hv.right.wf.lt_top (hv.mem_right hrel.1)
      rw [(hv.matched hrel).kind]
      exact Or.inr ⟨hv.mem_right hrel.1,
        hfits.congr (fun hlt => absurd hlt (Nat.not_lt_of_gt hx)) fun _ => hy⟩
  have hlayout := shape.layout _ _ _ hl.written
  refine ⟨hl, hr, hl.written.matched (hv.iso.pinning ▸ hr.written) (hlayout.1.trans shape.size_eq)
    hlength (fun k hk hout => ?_) fun k hk => ?_⟩
  · obtain ⟨x, hx⟩ : ∃ x, words[k]? = some x := ⟨_, List.getElem?_eq_getElem hk⟩
    rw [hlayout.2] at hout
    rw [hl.written.field k x hx, hr.written.field k x ((hplain k hout).trans hx)]
  · rw [hlayout.2] at hk
    obtain ⟨x, y, hx, hy, hholds⟩ := hget k hk
    obtain ⟨hxlt, hylt⟩ := hv.holds_lt hholds
    rw [hl.written.word hx hxlt, hr.written.word hy hylt]
    exact hholds.imp (fun h => ⟨h.1, h.2.1⟩) And.left

/-- In one heap, corresponding contents are the same. -/
theorem View.Single.words_eq (hs : v.Single) (shape : Shape kind words bytes size refs)
    (shape' : Shape kind words' bytes size refs)
    (href : ∀ k ∈ refs, ∀ x y, words[k]? = some x → words'[k]? = some y → v.Holds kind k x y)
    (hplain : ∀ k, k ∉ refs → words'[k]? = words[k]?) : words = words' := by
  refine List.ext_getElem? fun k => ?_
  by_cases hk : k ∈ refs
  · have hx := List.getElem?_eq_getElem (shape.inside k hk)
    have hy := List.getElem?_eq_getElem (shape'.inside k hk)
    rw [hx, hy, Option.some.injEq]
    rcases href k hk _ _ hx hy with ⟨habs, habs', -⟩ | ⟨hrel, -⟩
    · rw [habs, habs']
    · exact hs.eq _ _ hrel.1
  · exact (hplain k hk).symm

theorem Corr.built (m' : Memory) (hv : Corr v)
    (hl : v.left.Pushed v.rules kind words bytes size m) :
    Built v kind (v.push size m m') v.left.top v.right.top := by
  refine ⟨hv.rel_push_top hl, hl.written.kind, hl.fresh hv.left, fun a b hab => ?_, rfl⟩
  have ha := hv.mem_left hab.1
  exact ⟨hv.rel_push hl hab, (hl.sameBody hv.left.wf ha).kind, hv.left.wf.lt_top ha⟩

end Put

namespace Agrees

variable {v : View} {n size : Nat} {kind : Kind} {words words' : List Nat} {bytes : List UInt8}
  {refs : List Nat}

/-- Putting records with corresponding contents on top. -/
theorem put (hv : Corr v) (hn : n ≤ v.left.roots.size) (hkind : kind.hangs = false)
    (hmay : kind = .builtin → ∃ index, words[1]? = some index ∧ v.may (.procedure index))
    (shape : Shape kind words bytes size refs) (shape' : Shape kind words' bytes size refs)
    (hfit : v.left.top + size ≤ v.left.capacity) (hfit' : v.right.top + size ≤ v.right.capacity)
    (href : ∀ k ∈ refs, ∀ x y, words[k]? = some x → words'[k]? = some y → v.Holds kind k x y)
    (hplain : ∀ k, k ∉ refs → words'[k]? = words[k]?) :
    Agrees n v (Built v kind) (HeapM.put kind size words bytes)
      (HeapM.put kind size words' bytes) := by
  obtain ⟨hl, hr, hmatch⟩ := hv.pushed shape shape' hfit hfit' href hplain
  have hw := hv.push hl hr hmatch
  have hsame : v.Single → v.left.written kind words bytes = v.right.written kind words' bytes :=
    fun hs => by rw [hs.same, hs.words_eq shape shape' href hplain]
  exact .ok (v.push size _ _) hw (hv.later_push hn hl hw hsame hkind hmay) (hv.built _ hl)

theorem checkSize_bind {last : View → α → β → Prop} {f : Unit → HeapM α} {g : Unit → HeapM β}
    (hv : Corr v) (hn : n ≤ v.left.roots.size)
    (h : size ≤ maxSize → Agrees n v last (f ()) (g ())) :
    Agrees n v last (HeapM.checkSize size >>= f) (HeapM.checkSize size >>= g) := by
  by_cases hsize : size > maxSize
  · simp only [HeapM.checkSize, if_pos hsize]
    exact (throw hv hn rfl).bind fun _ _ _ _ _ (hfalse : False) => hfalse.elim
  · simp only [HeapM.checkSize, if_neg hsize, pure_bind]
    exact h (Nat.le_of_not_lt hsize)

/-- Making room and putting records with corresponding contents there. -/
theorem build {kept kept' : Vector Ref l} {contents contents' : Vector Ref l → List Nat}
    (hv : Corr v) (hn : n ≤ v.left.roots.size) (hkind : kind.hangs = false)
    (hmay : kind = .builtin → ∀ xs, ∃ index, (contents xs)[1]? = some index ∧ v.may (.procedure index))
    (hkept : ∀ i (hi : i < l), v.Rel kept[i] kept'[i])
    (shape : ∀ xs, Shape kind (contents xs) bytes size refs)
    (shape' : ∀ xs, Shape kind (contents' xs) bytes size refs)
    (href : ∀ w xs ys, Corr w → RoomFor v kept size w xs ys → ∀ k ∈ refs, ∀ x y,
      (contents xs)[k]? = some x → (contents' ys)[k]? = some y → w.Holds kind k x y)
    (hplain : ∀ xs ys k, k ∉ refs → (contents' ys)[k]? = (contents xs)[k]?) :
    Agrees n v (Made v kind)
      (HeapM.room size kept >>= fun xs => HeapM.put kind size (contents xs) bytes)
      (HeapM.room size kept' >>= fun ys => HeapM.put kind size (contents' ys) bytes) := by
  refine (room hv hn hkept).bind fun w xs ys hw hlater hroom => ?_
  refine (put hw hlater.size hkind (fun hk => hlater.may ▸ hmay hk xs) (shape xs) (shape' ys)
    hroom.left hroom.right (href w xs ys hw hroom) (hplain xs ys)).mono (Nat.le_refl _)
    fun u r s _ _ hbuilt => ?_
  exact ⟨hbuilt.rel, hbuilt.kind_eq, hbuilt.roots.trans hroom.roots⟩

/-- Records that start with the references that were kept. -/
theorem build_kept {kept kept' : Vector Ref l} (rest : List Nat) (hv : Corr v)
    (hn : n ≤ v.left.roots.size) (hkind : kind.hangs = false)
    (hmay : kind = .builtin → ∀ xs : Vector Ref l, ∃ index, (xs.toList ++ rest)[1]? = some index ∧
      v.may (.procedure index))
    (hkept : ∀ i (hi : i < l), v.Rel kept[i] kept'[i]) (hfront : kind.front = some (size, l))
    (hsize : size = 5 + 4 * (l + rest.length) + bytes.length)
    (hfits : ∀ i (hi : i < l) t x, x < t →
      kind.Fits v.rules i t (v.left.memory.kind kept[i]) x) :
    Agrees n v (Made v kind)
      (HeapM.room size kept >>= fun xs => HeapM.put kind size (xs.toList ++ rest) bytes)
      (HeapM.room size kept' >>= fun ys => HeapM.put kind size (ys.toList ++ rest) bytes) := by
  have hshape : ∀ xs : Vector Ref l, Shape kind (xs.toList ++ rest) bytes size (List.range l) :=
    fun xs => .of_front hfront (by rw [List.length_append, Vector.length_toList]; exact hsize)
      (by rw [List.length_append, Vector.length_toList]; omega)
  have hget : ∀ (xs : Vector Ref l) k (hk : k < l), (xs.toList ++ rest)[k]? = some xs[k] := by
    intro xs k hk
    rw [List.getElem?_append_left (by rw [Vector.length_toList]; exact hk)]
    simp
  refine build hv hn hkind hmay hkept hshape hshape (fun w xs ys hw hroom k hk x y hx hy => ?_)
    fun xs ys k hk => ?_
  · have hk' := List.mem_range.mp hk
    cases (hget xs k hk').symm.trans hx
    cases (hget ys k hk').symm.trans hy
    have hrel := hroom.rel k hk'
    refine Or.inr ⟨hrel, ?_⟩
    rw [hroom.kind k hk', hroom.later.rules]
    exact hfits k hk' _ _ (hw.left.wf.lt_top (hw.mem_left hrel.1))
  · have hk' : l ≤ k := Nat.le_of_not_lt fun h => hk (List.mem_range.mpr h)
    rw [List.getElem?_append_right (by simpa using hk'),
      List.getElem?_append_right (by simpa using hk'), Vector.length_toList, Vector.length_toList]

section

variable (hv : Corr v) (hn : n ≤ v.left.roots.size)
include hv hn

/-- Records without references. -/
theorem build_plain {contents : List Nat} (hkind : kind.hangs = false) (hmay : kind ≠ .builtin)
    (shape : Shape kind contents bytes size []) :
    Agrees n v (Made v kind)
      (HeapM.room size #v[] >>= fun _ => HeapM.put kind size contents bytes)
      (HeapM.room size #v[] >>= fun _ => HeapM.put kind size contents bytes) :=
  build hv hn hkind (fun hk => absurd hk hmay) (fun i hi => absurd hi (Nat.not_lt_zero i))
    (fun _ => shape) (fun _ => shape) (fun _ _ _ _ _ _ hk => absurd hk List.not_mem_nil) fun _ _ _ _ => rfl

theorem integer (value : Int) :
    Agrees n v (Made v .integer) (HeapM.integer value) (HeapM.integer value) := by
  rw [HeapM.integer_eq]
  exact build_plain hv hn rfl nofun (.of_front rfl rfl (Nat.zero_le _))

theorem float (bits : UInt64) :
    Agrees n v (Made v .float) (HeapM.float bits) (HeapM.float bits) := by
  rw [HeapM.float_eq]
  exact build_plain hv hn rfl nofun (.of_front rfl rfl (Nat.zero_le _))

theorem character (c : Char) :
    Agrees n v (Made v .char) (HeapM.character c) (HeapM.character c) := by
  rw [HeapM.character_eq]
  exact build_plain hv hn rfl nofun (.of_front rfl rfl (Nat.zero_le _))

theorem string (text : String) :
    Agrees n v (Made v .string) (HeapM.string text) (HeapM.string text) := by
  rw [HeapM.string_eq]
  exact checkSize_bind hv hn fun hsize => build_plain hv hn rfl nofun (.string _ hsize)

theorem makeString (length : Nat) (fill : Char) :
    Agrees n v (Made v .string) (HeapM.makeString length fill) (HeapM.makeString length fill) := by
  rw [HeapM.makeString_eq]
  refine checkSize_bind hv hn fun hsize => build_plain hv hn rfl nofun ?_
  have hshape := Shape.string (List.replicate length fill.toNat)
  rw [List.length_replicate] at hshape
  exact hshape hsize

end

variable {a b c d : Nat}

section

variable (hv : Corr v) (hn : n ≤ v.left.roots.size)
include hv hn

theorem cons (hcar : v.Rel a b) (hcdr : v.Rel c d) :
    Agrees n v (Made v .pair) (HeapM.cons a c) (HeapM.cons b d) := by
  rw [HeapM.cons_eq, HeapM.cons_eq]
  refine build_kept [] hv hn rfl nofun ?_ rfl rfl fun _ _ _ _ _ => trivial
  rintro (_ | _ | i) hi
  · exact hcar
  · exact hcdr
  · omega

theorem tagged (hmarker : v.Rel a b) (hvalue : v.Rel c d) :
    Agrees n v (Made v .tagged) (HeapM.tagged a c) (HeapM.tagged b d) := by
  rw [HeapM.tagged_eq, HeapM.tagged_eq]
  refine build_kept [] hv hn rfl nofun ?_ rfl rfl fun _ _ _ _ hlt => hlt
  rintro (_ | _ | i) hi
  · exact hmarker
  · exact hvalue
  · omega

theorem builtin (hname : v.Rel a b) (index : Nat) (hmay : v.may (.procedure index)) :
    Agrees n v (Made v .builtin) (HeapM.builtin a index) (HeapM.builtin b index) := by
  rw [HeapM.builtin_eq, HeapM.builtin_eq]
  refine build_kept [index] hv hn rfl (fun _ xs => ?_) ?_ rfl rfl fun _ _ _ _ _ => trivial
  · obtain ⟨x, hx⟩ := List.length_eq_one_iff.mp (show xs.toList.length = 1 from Vector.length_toList)
    rw [hx]
    exact ⟨index, rfl, hmay⟩
  · rintro (_ | i) hi
    · exact hname
    · omega

theorem closure {name formals env body name' formals' env' body' : Nat} (hname : v.Rel name name')
    (hformals : v.Rel formals formals') (henv : v.Rel env env') (hbody : v.Rel body body')
    (hframe : v.rules.closures = true → v.left.memory.kind env = .environment) (arity : Nat)
    (rest : Bool) :
    Agrees n v (Made v .closure) (HeapM.closure name formals env body arity rest)
      (HeapM.closure name' formals' env' body' arity rest) := by
  rw [HeapM.closure_eq, HeapM.closure_eq]
  refine build_kept [arity] hv hn rfl nofun ?_ rfl rfl ?_
  · rintro (_ | _ | _ | _ | i) hi
    · exact hname
    · exact hformals
    · exact henv
    · exact hbody
    · omega
  · rintro i hi t x - rfl
    exact hframe

theorem environment {outer outer' : Option Ref} (houter : Option.Rel v.Rel outer outer')
    (hframe : ∀ r ∈ outer, v.left.memory.kind r = .environment) :
    Agrees n v (Made v .environment) (HeapM.environment outer) (HeapM.environment outer') := by
  rw [HeapM.environment_eq, HeapM.environment_eq]
  have hkept : v.Rel (outer.getD null) (outer'.getD null) := by
    cases houter with
    | none => exact hv.rel_null
    | some h => exact h
  refine build hv hn rfl (fun hk => by cases hk) ?_ (fun xs => .of_front rfl rfl (Nat.le_refl _))
    (fun xs => .of_front rfl rfl (Nat.le_refl _)) ?_ ?_
  · rintro (_ | i) hi
    · exact hkept
    · omega
  · intro w xs ys hw hroom k hk x y hx hy
    have hrel := hroom.rel 0 Nat.zero_lt_one
    rcases k with _ | _ | k
    · cases hx
      cases hy
      cases houter with
      | none => exact Or.inl ⟨rfl, rfl, rfl⟩
      | some h =>
        have hkind := (hroom.kind 0 Nat.zero_lt_one).trans (hframe _ rfl)
        exact Or.inr ⟨hrel, hkind, hw.left.wf.lt_top (hw.mem_left hrel.1)⟩
    · cases hx
      cases hy
      exact Or.inl ⟨rfl, rfl, rfl⟩
    · exact absurd (List.mem_range.mp hk) (by omega)
  · intro xs ys k hk
    rcases k with _ | k
    · exact absurd (by decide) hk
    · rfl

end

/-- Vectors with corresponding elements. -/
theorem put_vector (elements elements' : List Nat) (hv : Corr v) (hn : n ≤ v.left.roots.size)
    (hlength : elements'.length = elements.length) (hsize : sequenceSize elements.length ≤ maxSize)
    (hfit : v.left.top + sequenceSize elements.length ≤ v.left.capacity)
    (hfit' : v.right.top + sequenceSize elements.length ≤ v.right.capacity)
    (hrel : ∀ (i x y : Nat), elements[i]? = some x → elements'[i]? = some y → v.Rel x y) :
    Agrees n v (Built v .vector)
      (HeapM.put .vector (sequenceSize elements.length) (elements.length :: elements) [])
      (HeapM.put .vector (sequenceSize elements.length) (elements.length :: elements') []) := by
  have hshape' := Shape.vector elements' (hlength ▸ hsize)
  rw [hlength] at hshape'
  refine put hv hn rfl nofun (.vector elements hsize) hshape' hfit hfit' (fun k hk x y hx hy => ?_)
    fun k hk => ?_
  · obtain ⟨i, rfl⟩ : ∃ i, k = i + 1 := ⟨k - 1, by have := List.mem_range'_1.mp hk; omega⟩
    exact Or.inr ⟨hrel i x y hx hy, trivial⟩
  · match k with
    | 0 => rfl
    | i + 1 =>
      have hi : elements.length ≤ i := Nat.le_of_not_lt fun h =>
        hk (List.mem_range'_1.mpr ⟨by omega, by omega⟩)
      rw [List.getElem?_cons_succ, List.getElem?_cons_succ, List.getElem?_eq_none hi,
        List.getElem?_eq_none (by omega)]

section

variable (hv : Corr v) (hn : n ≤ v.left.roots.size)
include hv hn

theorem makeVector (length : Nat) (hfill : v.Rel a b) :
    Agrees n v (Made v .vector) (HeapM.makeVector length a) (HeapM.makeVector length b) := by
  rw [HeapM.makeVector_eq, HeapM.makeVector_eq]
  refine checkSize_bind hv hn fun hsize => ?_
  have hkept : ∀ i (hi : i < 1), v.Rel #v[a][i] #v[b][i] := by
    rintro (_ | i) hi
    · exact hfill
    · omega
  refine (room hv hn hkept).bind fun w xs ys hw hlater hroom => ?_
  have hput := put_vector (List.replicate length xs[0]) (List.replicate length ys[0]) hw hlater.size
  simp only [List.length_replicate] at hput
  refine (hput trivial hsize hroom.left hroom.right fun i x y hx hy => ?_).mono (Nat.le_refl _)
    fun u r s _ _ hbuilt => ⟨hbuilt.rel, hbuilt.kind_eq, hbuilt.roots.trans hroom.roots⟩
  rw [List.eq_of_mem_replicate (List.mem_of_getElem? hx),
    List.eq_of_mem_replicate (List.mem_of_getElem? hy)]
  exact hroom.rel 0 Nat.zero_lt_one

theorem vectorFromRoots (hbase : n ≤ base) (hg : ∀ s, v.guard = some s → s < base) :
    Agrees n v
      (fun w r s => w.Rel r s ∧ w.left.memory.kind r = .vector ∧
        w.left.roots.size = min base v.left.roots.size)
      (HeapM.vectorFromRoots base) (HeapM.vectorFromRoots base) := by
  rw [HeapM.vectorFromRoots_eq]
  refine rootCount_bind hv hn ?_
  generalize hlength : v.left.roots.size - base = length
  refine checkSize_bind hv hn fun hsize => ?_
  refine (room (k := 0) hv hn fun i hi => absurd hi (Nat.not_lt_zero i)).bind
    fun w _ _ hw hlater hroom => ?_
  have hslots : ∀ h : Heap, h.roots.size = v.left.roots.size →
      (h.roots.extract base (base + length)).toList.length = length ∧
      ∀ i x, (h.roots.extract base (base + length)).toList[i]? = some x → x = h.root (base + i) := by
    intro h hh
    refine ⟨by rw [Array.length_toList, Array.size_extract]; omega, fun i x hx => ?_⟩
    rw [Array.getElem?_toList, Array.getElem?_extract] at hx
    split at hx
    · rw [Heap.root, hx]
      rfl
    · cases hx
  obtain ⟨hlen, hget⟩ := hslots w.left hroom.roots
  obtain ⟨hlen', hget'⟩ := hslots w.right (hw.iso.size.symm.trans hroom.roots)
  refine of_step (.refl hw hlater.size) rfl rfl ?_
  have hput := put_vector (n := n) _ _ hw hlater.size (hlen'.trans hlen.symm)
  rw [hlen] at hput
  refine (hput hsize hroom.left hroom.right fun i x y hx hy => ?_).bind
    fun u r s hu hlater' hbuilt => ?_
  · rw [hget i x hx, hget' i y hy]
    refine hw.rel_root fun hs => ?_
    have := hg _ (hlater.guard.symm.trans hs)
    omega
  · have hg' : ∀ s, u.guard = some s → s < base := fun s hs =>
      hg s ((hlater'.guard.trans hlater.guard).symm.trans hs)
    refine releaseRoots_bind hu hlater'.size hbase hg' fun z hz => ?_
    refine pure hz.corr ?_ ⟨hz.rel r s hbuilt.rel, (hz.kind r).trans hbuilt.kind_eq, ?_⟩
    · rw [hz.size]
      exact Nat.le_min.mpr ⟨hbase, hlater'.size⟩
    · rw [hz.size, hbuilt.roots, hroom.roots]

/-- Each step conses the value of one more slot. -/
theorem listOnto {start : Nat} (hg : ∀ s, v.guard = some s → s < start) (htail : v.Rel a b) :
    Agrees n v (fun w r s => w.Rel r s ∧ w.left.roots.size = v.left.roots.size)
      (HeapM.listOnto start count a) (HeapM.listOnto start count b) := by
  induction count generalizing v a b with
  | zero => exact pure hv hn ⟨htail, rfl⟩
  | succ count ih =>
    refine root_bind hv (fun hs => absurd (hg _ hs) (by omega)) fun hslot => ?_
    refine (cons hv hn hslot htail).bind fun w r s hw hlater hmade => ?_
    refine (ih hw hlater.size (fun s hs => hg s (hlater.guard.symm.trans hs)) hmade.rel).mono
      (Nat.le_refl _) fun u r s _ _ hpost => ⟨hpost.1, hpost.2.trans hmade.roots⟩

theorem listFromRoots (hbase : n ≤ base) (hg : ∀ s, v.guard = some s → s < base)
    (htail : v.Rel a b) :
    Agrees n v (fun w r s => w.Rel r s ∧ w.left.roots.size = min base v.left.roots.size)
      (HeapM.listFromRoots base a) (HeapM.listFromRoots base b) := by
  refine rootCount_bind hv hn ?_
  refine (listOnto hv hn hg htail).bind fun w r s hw hlater hpost => ?_
  have hg' : ∀ s, w.guard = some s → s < base := fun s hs => hg s (hlater.guard.symm.trans hs)
  refine releaseRoots_bind hw hlater.size hbase hg' fun z hz => ?_
  refine pure hz.corr ?_ ⟨hz.rel r s hpost.1, ?_⟩
  · rw [hz.size]
    exact Nat.le_min.mpr ⟨hbase, hlater.size⟩
  · rw [hz.size, hpost.2]

end

end Agrees

end ArenaScheme
