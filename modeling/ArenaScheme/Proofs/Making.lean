import ArenaScheme.Proofs.Symbols

/-! What constructors do to one heap. The references a constructor is given go where the records
they lead to have moved, and a record with them stands on top, to which nothing leads yet; or else
there is no room. -/

namespace ArenaScheme

open Memory Heap

/-- The faults of a memory that is too small. -/
def Fault.isMemory : Fault → Bool
  | heapExhausted _ | recordTooLarge _ => true
  | _ => false

/-- The fault of a memory that is too small for what is in it. -/
def Fault.isHeapExhausted : Fault → Bool
  | heapExhausted _ => true
  | _ => false

/-- Where the first `top` bytes are taken, there is no room for what the fault is about. -/
def Fault.Exceeds (top : Nat) : Fault → Prop
  | heapExhausted size => maxSize < top + size
  | recordTooLarge size => maxSize < size
  | _ => False

theorem Fault.Exceeds.isMemory {top : Nat} {fault : Fault} (h : fault.Exceeds top) :
    fault.isMemory = true := by
  cases fault <;> first | rfl | cases h

/-- How a constructor of a record of `size` bytes ends. What it writes depends on where the records
at `refs` have moved. -/
inductive Heap.Makes (rules : Rules) (h : Heap) (refs : List Nat) (kind : Kind)
    (words : (Nat → Nat) → List Nat) (bytes : List UInt8) (size : Nat) :
    EStateM.Result Fault Heap Ref → Prop
  | ok {kept : Nat → Prop} {place : Nat → Nat} {k : Heap} {m : Memory} :
    h.Relocation kept place k → (∀ r ∈ refs, kept r) →
    k.Pushed rules kind (words place) bytes size m →
    Makes rules h refs kind words bytes size
      (.ok k.top { k with memory := m, top := k.top + size })
  | exhausted {kept : Nat → Prop} {place : Nat → Nat} {k : Heap} :
    h.Relocation kept place k → maxSize < k.top + size →
    Makes rules h refs kind words bytes size (.error (.heapExhausted size) k)

/-- What is live was in use before. -/
theorem Heap.LiveBytes.le_top {h : Heap} {n live : Nat} {refs : Vector Ref n}
    (hlive : h.LiveBytes refs live) : live ≤ h.top := by
  obtain ⟨g, place, hr, rfl⟩ := hlive
  exact hr.top_le

namespace HeapM

section Run

variable {α β : Type} (h : Heap)

theorem bind_error {h k : Heap} {x : HeapM α} {f : α → HeapM β} {fault : Fault}
    (hx : x h = .error fault k) : (x >>= f) h = .error fault k := by
  simp only [bind, EStateM.bind, hx]

theorem get_bind (f : Heap → HeapM α) : (get >>= f) h = f h h := rfl

theorem query_bind (question : Heap → Except Fault α) (f : α → HeapM β) :
    (query question >>= f) h =
      match question h with
      | .ok a => f a h
      | .error fault => .error fault h := by
  unfold query
  cases hq : question h <;> simp only [bind, EStateM.bind, hq]

theorem root_bind (slot : Slot) (f : Ref → HeapM α) : (root slot >>= f) h = f (h.root slot) h := rfl

theorem rootCount_bind (f : Nat → HeapM α) : (rootCount >>= f) h = f h.roots.size h := rfl

theorem pushRoot_bind (r : Ref) (f : Slot → HeapM α) :
    (pushRoot r >>= f) h = f h.roots.size { h with roots := h.roots.push r } := rfl

theorem setRoot_bind (slot : Slot) (r : Ref) (f : Unit → HeapM α) :
    (setRoot slot r >>= f) h = f () { h with roots := h.roots.setIfInBounds slot r } := rfl

theorem releaseRoots_bind (count : Nat) (f : Unit → HeapM α) :
    (releaseRoots count >>= f) h = f () { h with roots := h.roots.shrink count } := rfl

end Run

variable {rules : Rules} {h : Heap} {kind : Kind} {bytes : List UInt8} {size : Nat}

theorem makes {n : Nat} (kept : Vector Ref n) (contents : Vector Ref n → List Nat)
    {fields : List Nat} (hs : h.Sound rules) (hkept : ∀ r ∈ kept, r ∈ h.records)
    (shape : ∀ xs, Shape kind (contents xs) bytes size fields)
    (hfits : ∀ {live place k}, h.Relocation live place k → (∀ r ∈ kept, live r) →
      ∀ i ∈ fields, ∀ x, (contents (kept.map place))[i]? = some x →
        (x = absent ∧ kind.mayBeAbsent i = true) ∨
          (x ∈ k.records ∧ kind.Fits rules i k.top (k.memory.kind x) x)) :
    h.Makes rules kept.toList kind (fun place => contents (kept.map place)) bytes size
      ((room size kept >>= fun xs => put kind size (contents xs) bytes) h) := by
  obtain ⟨_, live, place, k, -, hr, hlive, ⟨-, hok, hfit⟩ | ⟨hgt, rfl, herror⟩⟩ :=
    room_spec size hs.wf hs.capacity_pos hkept
  · rw [bind_ok hok]
    exact .ok hr (fun r hr => hlive r (Vector.mem_toList_iff.mp hr))
      ((hs.relocate hr).pushed (shape _) hfit (hfits hr hlive))
  · have hrun : (room size kept >>= fun xs => put kind size (contents xs) bytes) h =
        .error (.heapExhausted size) k := by
      simp only [bind, EStateM.bind, herror]
    rw [hrun]
    exact .exhausted hr hgt

/-- A record that starts with the references it is given. -/
theorem makes_kept {n : Nat} (kept : Vector Ref n) (more : List Nat) (hs : h.Sound rules)
    (hkept : ∀ r ∈ kept, r ∈ h.records) (hfront : kind.front = some (size, n))
    (hsize : size = 5 + 4 * (n + more.length) + bytes.length)
    (hfits : ∀ {live place k}, h.Relocation live place k → (∀ r ∈ kept, live r) →
      ∀ (i : Nat) (hi : i < n),
        kind.Fits rules i k.top (k.memory.kind (place kept[i])) (place kept[i])) :
    h.Makes rules kept.toList kind (fun place => kept.toList.map place ++ more) bytes size
      ((room size kept >>= fun xs => put kind size (xs.toList ++ more) bytes) h) := by
  have hshape : ∀ xs : Vector Ref n, Shape kind (xs.toList ++ more) bytes size (List.range n) :=
    fun xs => .of_front hfront (by simpa using hsize) (by simp)
  have hmakes := makes kept (fun xs => xs.toList ++ more) hs hkept hshape ?_
  · simp only [Vector.toList_map] at hmakes
    exact hmakes
  · intro live place k hr hlive i hi x hx
    have hlt := List.mem_range.mp hi
    rw [List.getElem?_append_left (by simpa using hlt), Vector.toList_map, List.getElem?_map,
      Vector.getElem?_toList, Vector.getElem?_eq_getElem hlt] at hx
    cases hx
    exact Or.inr ⟨hr.mem_records (hlive _ (Vector.getElem_mem hlt)), hfits hr hlive i hlt⟩

theorem mem_empty : ∀ r ∈ (#v[] : Vector Ref 0), r ∈ h.records := fun r hr => by simp at hr

theorem mem_two {a b : Nat} (ha : a ∈ h.records) (hb : b ∈ h.records) :
    ∀ r ∈ #v[a, b], r ∈ h.records := fun r hr => by
  have : r = a ∨ r = b := by simpa using hr
  rcases this with rfl | rfl <;> assumption

section

variable (hs : h.Sound rules)
include hs

theorem makes_plain {contents : List Nat} (shape : Shape kind contents bytes size []) :
    h.Makes rules [] kind (fun _ => contents) bytes size
      ((room size #v[] >>= fun _ => put kind size contents bytes) h) := by
  have hmakes := makes #v[] (fun _ => contents) hs mem_empty (fun _ => shape)
    fun _ _ _ hi => absurd hi List.not_mem_nil
  exact hmakes

theorem makes_integer (value : Int) :
    h.Makes rules [] .integer
      (fun _ => [(value % 18446744073709551616).toNat,
        (value % 18446744073709551616).toNat / 4294967296]) [] (fieldsSize 2)
      (integer value h) := by
  rw [integer_eq]
  exact makes_plain hs (.of_front rfl rfl (Nat.zero_le _))

theorem makes_float (bits : UInt64) :
    h.Makes rules [] .float (fun _ => [bits.toNat, bits.toNat / 4294967296]) [] (fieldsSize 2)
      (float bits h) := by
  rw [float_eq]
  exact makes_plain hs (.of_front rfl rfl (Nat.zero_le _))

theorem makes_character (c : Char) :
    h.Makes rules [] .char (fun _ => [c.toNat]) [] (fieldsSize 1) (character c h) := by
  rw [character_eq]
  exact makes_plain hs (.of_front rfl rfl (Nat.zero_le _))

theorem makes_string (text : String) (hsize : sequenceSize text.toList.length ≤ maxSize) :
    h.Makes rules [] .string
      (fun _ => text.toList.length :: text.toList.map Char.toNat) []
      (sequenceSize text.toList.length) (string text h) := by
  rw [string_eq]
  simp only [List.length_map]
  rw [checkSize, if_neg (Nat.not_lt_of_le hsize), pure_bind]
  have hshape := Shape.string (text.toList.map Char.toNat)
  rw [List.length_map] at hshape
  exact makes_plain hs (hshape hsize)

theorem makes_makeString (length : Nat) (fill : Char)
    (hsize : sequenceSize length ≤ maxSize) :
    h.Makes rules [] .string (fun _ => length :: List.replicate length fill.toNat) []
      (sequenceSize length) (makeString length fill h) := by
  rw [makeString_eq, checkSize, if_neg (Nat.not_lt_of_le hsize), pure_bind]
  have hshape := Shape.string (List.replicate length fill.toNat)
  rw [List.length_replicate] at hshape
  exact makes_plain hs (hshape hsize)

theorem makes_makeVector {fill : Nat} (length : Nat) (hfill : fill ∈ h.records)
    (hsize : sequenceSize length ≤ maxSize) :
    h.Makes rules [fill] .vector (fun place => length :: List.replicate length (place fill)) []
      (sequenceSize length) (makeVector length fill h) := by
  rw [makeVector_eq, checkSize, if_neg (Nat.not_lt_of_le hsize), pure_bind]
  have hshape : ∀ xs : Vector Ref 1, Shape .vector (length :: List.replicate length xs[0]) []
      (sequenceSize length) (List.range' 1 length) := fun xs => by
    have hshape := Shape.vector (List.replicate length xs[0])
    rw [List.length_replicate] at hshape
    exact hshape hsize
  have hwhere : ∀ place : Nat → Nat, (#v[fill].map place)[0] = place fill :=
    fun place => by rw [Vector.getElem_map]; rfl
  have hmakes := makes #v[fill] (fun xs => length :: List.replicate length xs[0]) hs ?_ hshape ?_
  · simp only [hwhere] at hmakes
    exact hmakes
  · intro r hr
    obtain rfl : r = fill := by simpa using hr
    exact hfill
  · intro live place k hr hlive i hi x hx
    obtain ⟨i, rfl⟩ : ∃ j, i = j + 1 := ⟨i - 1, by have := List.mem_range'_1.mp hi; omega⟩
    rw [List.getElem?_cons_succ] at hx
    obtain rfl := List.eq_of_mem_replicate (List.mem_of_getElem? hx)
    rw [hwhere]
    exact Or.inr ⟨hr.mem_records (hlive fill (by simp)), trivial⟩

theorem makes_cons {a c : Nat} (ha : a ∈ h.records) (hc : c ∈ h.records) :
    h.Makes rules [a, c] .pair (fun place => [place a, place c]) [] (fieldsSize 2)
      (cons a c h) := by
  rw [cons_eq]
  exact makes_kept #v[a, c] [] hs (mem_two ha hc) rfl rfl fun _ _ _ _ => trivial

theorem makes_tagged {a b : Nat} (ha : a ∈ h.records) (hb : b ∈ h.records) :
    h.Makes rules [a, b] .tagged (fun place => [place a, place b]) [] (fieldsSize 2)
      (tagged a b h) := by
  rw [tagged_eq]
  exact makes_kept #v[a, b] [] hs (mem_two ha hb) rfl rfl fun {_ _ k} hr hlive i hi =>
    hr.wellFormed.lt_top (hr.mem_records (hlive _ (Vector.getElem_mem hi)))

theorem makes_closure {c : Closure}
    (hrefs : ∀ r ∈ [c.name, c.formals, c.env, c.body], r ∈ h.records)
    (henv : rules.closures = true → h.memory.kind c.env = .environment) :
    h.Makes rules [c.name, c.formals, c.env, c.body] .closure
      (fun place => [place c.name, place c.formals, place c.env, place c.body, c.arity])
      [if c.rest then 1 else 0] closureSize
      (closure c.name c.formals c.env c.body c.arity c.rest h) := by
  rw [closure_eq]
  refine makes_kept #v[c.name, c.formals, c.env, c.body] [c.arity] hs
    (fun r hr => hrefs r (by simpa using hr)) rfl rfl fun {_ _ k} hr hlive i hi => ?_
  rintro rfl hrules
  exact (hr.record _ (hlive _ (Vector.getElem_mem hi))).kind.trans (henv hrules)

theorem makes_builtin {a : Nat} (ha : a ∈ h.records) (index : Nat) :
    h.Makes rules [a] .builtin (fun place => [place a, index]) [] (fieldsSize 2)
      (builtin a index h) := by
  rw [builtin_eq]
  refine makes_kept #v[a] [index] hs (fun r hr => ?_) rfl rfl fun _ _ _ _ => trivial
  obtain rfl : r = a := by simpa using hr
  exact ha

/-- A new frame inside of another one, or an outermost one. -/
theorem makes_environment {outer : Option Ref}
    (houter : ∀ r ∈ outer, r ∈ h.records ∧ h.memory.kind r = .environment) :
    h.Makes rules [outer.getD null] .environment
      (fun place => [if outer.isSome then place (outer.getD null) else absent, absent]) []
      (fieldsSize 2) (environment outer h) := by
  rw [environment_eq]
  have hshape : ∀ xs : Vector Ref 1, Shape .environment
      [if outer.isSome then xs[0] else absent, absent] [] (fieldsSize 2) (List.range 2) :=
    fun xs => .of_front rfl rfl (Nat.le_refl _)
  have hwhere : ∀ place : Nat → Nat, (#v[outer.getD null].map place)[0] = place (outer.getD null) :=
    fun place => by rw [Vector.getElem_map]; rfl
  have hmakes := makes #v[outer.getD null]
    (fun kept => [if outer.isSome then kept[0] else absent, absent]) hs ?_ hshape ?_
  · simp only [hwhere] at hmakes
    exact hmakes
  · intro r hr
    obtain rfl : r = outer.getD null := by simpa using hr
    cases outer with
    | none => exact (hs.fixture (null, .null) (by decide)).1
    | some r => exact (houter r rfl).1
  · intro live place k hr hlive i hi x hx
    rcases i with _ | _ | i
    · simp only [hwhere, List.getElem?_cons_zero, Option.some_inj] at hx
      subst hx
      cases outer with
      | none => exact Or.inl ⟨rfl, rfl⟩
      | some r =>
        have hkept := hlive r (by simp)
        have hmem := hr.mem_records hkept
        exact Or.inr ⟨hmem, (hr.record r hkept).kind.trans (houter r rfl).2,
          hr.wellFormed.lt_top hmem⟩
    · cases hx
      exact Or.inl ⟨rfl, rfl⟩
    · exact absurd (List.mem_range.mp hi) (by omega)

end

end HeapM

/-- How a vector of the roots from `base` on ends up. -/
inductive Heap.Gathers (rules : Rules) (h : Heap) (base : Nat) :
    EStateM.Result Fault Heap Ref → Prop
  | ok {kept : Nat → Prop} {place : Nat → Nat} {k : Heap} {m : Memory} :
    h.Relocation kept place k →
    k.Pushed rules .vector
      ((h.roots.size - base) :: (k.roots.extract base (base + (h.roots.size - base))).toList) []
      (sequenceSize (h.roots.size - base)) m →
    Gathers rules h base (.ok k.top
      { k with
        memory := m, top := k.top + sequenceSize (h.roots.size - base)
        roots := k.roots.shrink base })
  | tooLarge : maxSize < sequenceSize (h.roots.size - base) →
    Gathers rules h base (.error (.recordTooLarge (sequenceSize (h.roots.size - base))) h)
  | exhausted {kept : Nat → Prop} {place : Nat → Nat} {k : Heap} : h.Relocation kept place k →
    maxSize < k.top + sequenceSize (h.roots.size - base) →
    Gathers rules h base (.error (.heapExhausted (sequenceSize (h.roots.size - base))) k)

theorem HeapM.gathers {rules : Rules} {h : Heap} (hs : h.Sound rules) (base : Nat) :
    h.Gathers rules base (vectorFromRoots base h) := by
  rw [vectorFromRoots_eq]
  change h.Gathers rules base ((checkSize (sequenceSize (h.roots.size - base)) >>= fun _ =>
    room (sequenceSize (h.roots.size - base)) #v[] >>= fun _ =>
    rootsBetween base (base + (h.roots.size - base)) >>= fun elements =>
    put .vector (sequenceSize (h.roots.size - base)) ((h.roots.size - base) :: elements) [] >>=
      fun r => releaseRoots base >>= fun _ => pure r) h)
  by_cases hsize : sequenceSize (h.roots.size - base) > maxSize
  · rw [checkSize, if_pos hsize]
    exact .tooLarge hsize
  rw [checkSize, if_neg hsize, pure_bind]
  obtain ⟨_, live, place, k, -, hr, -, ⟨-, hok, hfit⟩ | ⟨hgt, rfl, herror⟩⟩ :=
    room_spec (sequenceSize (h.roots.size - base)) hs.wf hs.capacity_pos mem_empty
  · rw [bind_ok hok]
    have hroots : k.roots.size = h.roots.size := by rw [hr.roots, Array.size_map]
    have hlength : (k.roots.extract base (base + (h.roots.size - base))).toList.length =
        h.roots.size - base := by
      rw [Array.length_toList, Array.size_extract]
      omega
    have hshape := Shape.vector (k.roots.extract base (base + (h.roots.size - base))).toList
    rw [hlength] at hshape
    have hm := (hs.relocate hr).pushed (hshape (Nat.le_of_not_lt hsize)) hfit fun i hi x hx => by
      obtain ⟨i, rfl⟩ : ∃ j, i = j + 1 := ⟨i - 1, by have := List.mem_range'_1.mp hi; omega⟩
      rw [List.getElem?_cons_succ, Array.getElem?_toList, Array.getElem?_extract] at hx
      refine Or.inr ⟨?_, trivial⟩
      split at hx
      · exact hr.wellFormed.root x (Array.mem_of_getElem? hx)
      · cases hx
    rw [rootsBetween_bind, put_bind]
    generalize k.written _ _ _ = m at hm ⊢
    exact .ok hr hm
  · simp only [bind, EStateM.bind, herror]
    exact .exhausted hr hgt

/-- How interning ends. -/
inductive Heap.Interns (rules : Rules) (h : Heap) (name : List UInt8) :
    EStateM.Result Fault Heap Ref → Prop
  | found {r : Nat} : h.findSymbol name = some r → Interns rules h name (.ok r h)
  | added {kept : Nat → Prop} {place : Nat → Nat} {k g : Heap} :
    h.findSymbol name = none → h.Relocation kept place k → k.SymbolAdded rules name g →
    g.Sound rules → Interns rules h name (.ok k.top g)
  | tooLarge : h.findSymbol name = none → maxSize < symbolSize name.length →
    Interns rules h name (.error (.recordTooLarge (symbolSize name.length)) h)
  | exhausted {kept : Nat → Prop} {place : Nat → Nat} {k : Heap} :
    h.findSymbol name = none → h.LiveBytes (#v[] : Vector Ref 0) k.top →
    maxSize < k.top + symbolSize name.length → h.Relocation kept place k →
    Interns rules h name (.error (.heapExhausted (symbolSize name.length)) k)

theorem HeapM.interns {rules : Rules} {h : Heap} (hs : h.Sound rules)
    (digest : List UInt8 → Nat) (name : String) :
    h.Interns rules name.toUTF8.toList (internWith digest name h) := by
  unfold internWith
  have htext : ∃ text : String, name.toUTF8.toList = text.toUTF8.toList := ⟨name, rfl⟩
  generalize name.toUTF8.toList = bytes at htext ⊢
  rw [get_bind]
  cases hfind : h.findSymbol bytes with
  | some r => exact .found hfind
  | none =>
    simp only
    by_cases hsize : symbolSize bytes.length > maxSize
    · rw [checkSize, if_pos hsize]
      exact .tooLarge hfind hsize
    rw [checkSize, if_neg hsize, pure_bind,
      reserve_bind [absent, absent, digest bytes, bytes.length] bytes]
    rotate_left
    · exact fun _ _ => rfl
    obtain ⟨_, kept, place, k, hlive, hr, -, ⟨-, hok, hfit⟩ | ⟨hgt, rfl, herror⟩⟩ :=
      room_spec (symbolSize bytes.length) hs.wf hs.capacity_pos mem_empty
    · have hk := hs.relocate hr
      have hm := hk.pushed (.symbol (digest bytes) bytes (Nat.le_of_not_lt hsize)) hfit
        fun i hi x hx => by
          rcases i with _ | _ | i
          · cases hx
            exact Or.inl ⟨rfl, rfl⟩
          · cases hx
            exact Or.inl ⟨rfl, rfl⟩
          · simp at hi
      rw [bind_ok hok, put_bind]
      generalize k.written _ _ _ = m at hm ⊢
      have hz := Corr.diagonal (hm.sound hk) fun _ => True
      have hmem : k.top ∈ { k with memory := m, top := k.top + symbolSize bytes.length }.records := by
        rw [hm.records hk.wf]
        simp
      obtain ⟨w, hrun, -, hw, hterms, -, hhung, -⟩ := hz.attachSymbol bytes (View.diagonal_rel hmem)
        hm.written.kind (hm.fresh hk)
      change h.Interns rules bytes ((attachSymbol bytes k.top >>= fun _ => pure k.top)
        (View.diagonal rules (fun _ => True)
          { k with memory := m, top := k.top + symbolSize bytes.length }).left)
      rw [bind_ok hrun]
      have hstrict : w.rules = rules := hterms.rules
      exact .added hfind hr ⟨Corr.findSymbol_moved hs hr hfind, htext, digest bytes, m, hm, hhung⟩
        (hstrict ▸ hw.left)
    · simp only [bind, EStateM.bind, herror]
      exact .exhausted hfind hlive hgt hr

end ArenaScheme
