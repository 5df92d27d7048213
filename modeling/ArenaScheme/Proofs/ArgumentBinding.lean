import ArenaScheme.Proofs.ParameterLists

/-! Arguments and parameters. A call makes a frame inside the one that the procedure closed over. If the
number of arguments is right and no parameter has a reserved name, the frame binds each parameter to the
argument in its place, where of several parameters of one name the last one counts, and nothing else. -/

namespace ArenaScheme

open Memory Heap

variable {rest : Bool} {h : Heap} {kind : Kind} {fixed parent r s v : Nat} {vars : Nat → Option Nat}
  {outer : Option Nat}

/-! Heaps in order. -/

/-- The heaps that a host can come to have, with or without a machine, if what its closures capture are
frames. -/
inductive Heap.Hosted (size : UInt32) : Heap → Prop
  | new : Hosted size (Heap.new size.toNat)
  | machine {m : Machine} : Machine.Confined size m → Hosted size m.heap
  | operate {h : Heap} {op : HeapOp} : Hosted size h → op.Valid h →
    (∀ r ∈ op.captured, h.memory.kind r = .environment) → Hosted size (op.apply h)

/-- A heap that portrays what it has records of. -/
structure Heap.InOrder (h : Heap) : Prop where
  sound : h.Sound Rules.strict
  tidy : h.Tidy
  lettered : h.Lettered

theorem Heap.Hosted.inOrder {size : UInt32} (hh : h.Hosted size) : h.InOrder := by
  induction hh with
  | new =>
    exact ⟨.new (Nat.le_of_lt_succ size.toNat_lt) Rules.strict, .new _,
      fun _ hname => absurd hname (not_hasName_new _)⟩
  | machine hm => exact ⟨hm.strict.sound, hm.strict.tidy, hm.reachable.lettered⟩
  | operate _ hop hcaptured ih =>
    have hevolves := HeapOp.evolves_under ih.sound (.of_none rfl) (fun _ => hcaptured) hop
    exact ⟨hevolves.sound_right, hevolves.tidy rfl ih.tidy,
      hevolves.lettered ih.tidy.table ih.lettered⟩

theorem Heap.InOrder.portrays (hh : h.InOrder) :
    Portrays ⟨true, h.Anchored⟩ h.things (h.roots.toList.map h.number) h.Numbered h :=
  hh.sound.portrays hh.tidy hh.lettered

/-! What binding means in a store. -/

namespace Store

variable {A B : Store} {names values : List Nat} {i f k : Nat}

/-- A list that starts with these symbols. -/
inductive Formals (A : Store) : List Nat → Nat → Prop
  | nil {i : Nat} : Formals A [] i
  | cons {i s cdr : Nat} {name : String} {names : List Nat} : A.item i = .pair s cdr →
    A.item s = .symbol name → Formals A names cdr → Formals A (s :: names) i

/-- The first symbol of the list that has a reserved name. -/
def reserved (A : Store) (names : List Nat) : Option String :=
  (names.map A.name).find? isReserved

theorem item_of_extends_of_ne (hAB : A.items <+: B.items) (hne : A.item i ≠ .singleton .null) :
    B.item i = A.item i := by
  refine item_of_extends hAB (Nat.lt_of_not_le fun hle => hne ?_)
  unfold item
  rw [List.getElem?_eq_none hle]
  rfl

theorem item_setVar_of_kind_ne (hkind : (A.item i).kind ≠ .environment) :
    (A.setVar f s v).item i = A.item i := by
  unfold item at hkind ⊢
  rw [items_setVar]
  cases hitem : A.items[i]? with
  | none => rfl
  | some item =>
    rw [hitem] at hkind
    simp only [Option.map_some, Option.getD_some] at hkind ⊢
    split
    · cases item <;> first | rfl | exact absurd rfl hkind
    · rfl

theorem set_setVar (A : Store) (k s v : Nat) (item : Item) :
    (A.setVar k s v).items.set k item = A.items.set k item := by
  have hlength : (A.setVar k s v).items.length = A.items.length := List.length_modify ..
  refine List.ext_getElem? fun j => ?_
  rw [List.getElem?_set, List.getElem?_set, items_setVar, hlength]
  split
  · rfl
  · simp

/-- Parameters stay what they are where pairs and symbols do. -/
theorem Formals.mono (hf : A.Formals names i)
    (hpair : ∀ {i car cdr}, A.item i = .pair car cdr → B.item i = .pair car cdr)
    (hsymbol : ∀ {s name}, A.item s = .symbol name → B.item s = .symbol name) :
    B.Formals names i ∧ B.reserved names = A.reserved names := by
  induction hf with
  | nil => exact ⟨.nil, rfl⟩
  | cons hi hs _ ih =>
    refine ⟨.cons (hpair hi) (hsymbol hs) ih.1, ?_⟩
    have hname : ∀ {s name}, A.item s = .symbol name → B.name s = A.name s := fun hs => by
      simp only [Store.name, hs, hsymbol hs]
    have hrest := ih.2
    unfold reserved at hrest ⊢
    simp only [List.map_cons, List.find?_cons, hname hs, hrest]

theorem Formals.grow (hf : A.Formals names i) (hAB : A.items <+: B.items) :
    B.Formals names i ∧ B.reserved names = A.reserved names := by
  refine hf.mono (fun hi => ?_) (fun hi => ?_)
  · exact (item_of_extends_of_ne hAB (by rw [hi]; nofun)).trans hi
  · exact (item_of_extends_of_ne hAB (by rw [hi]; nofun)).trans hi

theorem Formals.setVar (hf : A.Formals names i) (s v : Nat) :
    (A.setVar f s v).Formals names i ∧ (A.setVar f s v).reserved names = A.reserved names := by
  refine hf.mono (fun hi => ?_) (fun hi => ?_)
  · exact (item_setVar_of_kind_ne (by rw [hi]; nofun)).trans hi
  · exact (item_setVar_of_kind_ne (by rw [hi]; nofun)).trans hi

/-- What a symbol stands for if the symbols have got the values one after the other. -/
def lastValue (names values : List Nat) (s : Nat) : Option Nat := (names.zip values).reverse.lookup s

theorem lastValue_cons (name value s : Nat) (names values : List Nat) :
    lastValue (name :: names) (value :: values) s =
      (lastValue names values s).or (if s = name then some value else none) := by
  unfold lastValue
  rw [List.zip_cons_cons, List.reverse_cons, List.lookup_append]
  congr 1
  by_cases hs : s = name
  · subst hs
    simp [List.lookup]
  · simp [List.lookup, hs, beq_eq_false_iff_ne.mpr hs]

theorem expect_of_kind {expected : String} (hi : (A.item i).kind = kind) :
    A.expect kind expected i = .ok () := by
  rw [expect, if_pos hi]

theorem define_symbol {name : String} (hs : A.item s = .symbol name)
    (hk : A.item k = .frame outer vars) :
    A.define k s v = if isReserved name then .error (.reservedName name) else .ok (A.setVar k s v) := by
  have hname : A.name s = name := by simp only [Store.name, hs]
  unfold define
  rw [expect_of_kind (by rw [hs]; rfl), expect_of_kind (by rw [hk]; rfl), hname]
  cases isReserved name <;> rfl

/-- The loop over the parameters stops at the first reserved name; without one it leaves the frame with
their last values. -/
theorem bindAll_eq (hk : A.items[k]? = some (.frame outer vars)) (hf : A.Formals names f)
    (hlength : values.length = names.length) :
    A.bindAll k f values = match A.reserved names with
      | some name => .error (.reservedName name)
      | none => .ok ⟨A.items.set k (.frame outer fun s => (lastValue names values s).or (vars s))⟩ := by
  induction names generalizing A f values vars with
  | nil =>
    obtain rfl := List.length_eq_zero_iff.mp hlength
    have hset : A.items.set k (.frame outer fun s => (lastValue [] [] s).or (vars s)) = A.items := by
      obtain ⟨hlt, hget⟩ := List.getElem?_eq_some_iff.mp hk
      change A.items.set k (.frame outer vars) = A.items
      rw [← hget, List.set_getElem_self]
    change Except.ok A = .ok ⟨_⟩
    rw [hset]
  | cons s names ih =>
    obtain ⟨v, values, rfl⟩ := List.exists_cons_of_length_eq_add_one hlength
    cases hf with
    | @cons _ _ cdr name _ hi hs hrest =>
      have hframe : A.item k = .frame outer vars := by rw [item, hk]; rfl
      have hname : A.name s = name := by simp only [Store.name, hs]
      have hcar : A.car f = s := by simp only [car, hi]
      rw [bindAll, expect_of_kind (by rw [hi]; rfl), hcar, define_symbol hs hframe]
      unfold reserved
      rw [List.map_cons, List.find?_cons, hname]
      cases hreserved : isReserved name with
      | true => rfl
      | false =>
        have hcdr : (A.setVar k s v).cdr f = cdr := by
          rw [Store.cdr, item_setVar_of_kind_ne (by rw [hi]; rintro ⟨⟩), hi]
        have hk' : (A.setVar k s v).items[k]? =
            some (.frame outer fun t => if t = s then some v else vars t) := by
          rw [items_setVar, hk]
          simp [Item.mapVars]
        obtain ⟨hrest', hsame⟩ := hrest.setVar (f := k) s v
        have hnext := ih hk' hrest' (Nat.succ.inj hlength)
        rw [hsame] at hnext
        change (A.setVar k s v).bindAll k ((A.setVar k s v).cdr f) values = _
        rw [hcdr, hnext]
        have hfind : (names.map A.name).find? isReserved = A.reserved names := rfl
        simp only [hfind]
        cases A.reserved names with
        | some name => rfl
        | none =>
          have hvars : (fun t => (lastValue names values t).or (if t = s then some v else vars t)) =
              fun t => (lastValue (s :: names) (v :: values) t).or (vars t) := by
            funext t
            rw [lastValue_cons, Option.or_assoc]
            split <;> rfl
          simp only [set_setVar, hvars]

/-- In the later store there is a new frame inside `parent` that binds the parameters to the arguments,
and nothing that there was before has changed. A rest parameter is bound to a list of new pairs. -/
structure BindsArguments (A : Store) (parent : Nat) (names : List Nat) (rest : Bool) (args : List Nat)
    (k : Nat) (B : Store) : Prop where
  keeps : A.items <+: B.items
  fresh : A.items.length ≤ k
  frame : ∃ values, B.item k = .frame (some parent) (lastValue names values) ∧
    if rest then ∃ list, values = args.take (names.length - 1) ++ [list] ∧
      B.FreshList A.items.length (args.drop (names.length - 1)) list
    else values = args

/-- What extending means if the number of arguments is right. -/
theorem extend_of_count {args : List Nat}
    (hparent : A.expect .environment "environment" parent = .ok ()) (hnull : A.object null = .null)
    (hlt : null < A.items.length) (hf : A.Formals names f)
    (hfixed : HeapM.fixedParameters names.length rest args.length = .ok fixed) :
    match A.reserved names with
    | some name => A.extend parent f names.length rest args = .error (.reservedName name)
    | none => ∃ k B, A.extend parent f names.length rest args = .ok (k, B) ∧
        A.BindsArguments parent names rest args k B := by
  obtain ⟨hle, harity⟩ := HeapM.fixedParameters_eq_ok hfixed
  generalize hmade : (if rest then A.list 0 (args.drop fixed) else (0, A)) = made
  obtain ⟨u, L⟩ := made
  have hAL : A.items <+: L.items := by
    cases rest with
    | false => cases hmade; exact List.prefix_refl _
    | true =>
      have := A.extends_list 0 (args.drop fixed)
      rw [if_pos rfl] at hmade
      rwa [hmade] at this
  let values := args.take fixed ++ if rest then [u] else []
  have hlength : values.length = names.length := by
    have htake : (args.take fixed).length = fixed := by rw [List.length_take, Nat.min_eq_left hle]
    simp only [values, List.length_append, htake, harity]
    cases rest <;> rfl
  let C := (L.make (.frame (some parent) fun _ => none)).2
  have hAC : A.items <+: C.items := hAL.trans (List.prefix_append _ _)
  obtain ⟨hf', hreserved⟩ := hf.grow hAC
  have hk : C.items[L.items.length]? = some (.frame (some parent) fun _ => none) := by
    simp [C, make]
  have hbind := bindAll_eq hk hf' hlength
  rw [hreserved] at hbind
  rw [extend_eq hparent hfixed hmade]
  cases hname : A.reserved names with
  | some name =>
    rw [hname] at hbind
    change (C.bindAll L.items.length f values).map _ = _
    rw [hbind]
    rfl
  | none =>
    rw [hname] at hbind
    have hset : C.items.set L.items.length
        (.frame (some parent) fun s => (lastValue names values s).or none) =
        L.items ++ [.frame (some parent) (lastValue names values)] := by
      have hvars : (fun s => (lastValue names values s).or none) = lastValue names values := by
        funext s
        exact Option.or_none
      rw [hvars]
      simp [C, make]
    rw [hset] at hbind
    refine ⟨L.items.length, ⟨L.items ++ [.frame (some parent) (lastValue names values)]⟩, ?_,
      hAL.trans (List.prefix_append _ _), hAL.length_le, values, by simp [item], ?_⟩
    · change (C.bindAll L.items.length f values).map _ = _
      rw [hbind]
      rfl
    · cases rest with
      | false =>
        simp only [Bool.false_eq_true, if_false, Nat.add_zero] at harity ⊢
        unfold HeapM.fixedParameters at hfixed
        simp only [Bool.false_eq_true, if_false] at hfixed
        split at hfixed
        · rename_i heq
          simp only [values, Bool.false_eq_true, if_false, List.append_nil]
          exact List.take_of_length_le (by omega)
        · cases hfixed
      | true =>
        simp only [if_true] at harity ⊢
        obtain rfl : fixed = names.length - 1 := by omega
        refine ⟨u, rfl, ?_⟩
        have hlist : A.list 0 (args.drop (names.length - 1)) = (u, L) := by simpa using hmade
        have hfresh := freshList_list (B := ⟨L.items ++ [.frame (some parent) (lastValue names values)]⟩)
          hnull hlt (args.drop (names.length - 1)) (by
            change (A.list 0 _).2.items <+: _
            rw [hlist]
            exact List.prefix_append _ _)
        change FreshList _ _ _ (A.list 0 _).1 at hfresh
        rwa [hlist] at hfresh

end Store

/-! Frames on a heap. -/

/-- The first of the symbols that has a reserved name. -/
def Heap.reserved (h : Heap) (names : List Nat) : Option String :=
  (names.filterMap fun s => (h.symbolName s).toOption).find? isReserved

namespace Portrays

variable {ground : Ground} {A : Store} {slots : List Nat} {pos : Nat → Nat → Prop} {h : Heap}

/-- The parameters in a heap, as a store has them. -/
theorem formals {i : Nat} {names' : List Nat} (hd : Portrays ground A slots pos h) (hi : pos i r)
    (hp : h.Parameters r names' false) :
    ∃ names, List.Forall₂ pos names names' ∧ A.Formals names i ∧
      A.reserved names = h.reserved names' := by
  generalize hrest : false = rest at hp
  induction hp generalizing i with
  | null _ => exact ⟨[], .nil, .nil, rfl⟩
  | symbol _ => cases hrest
  | @pair r car cdr names' _ ho hcar _ ih =>
    have halike := hd.toDepicts.object hi
    rw [ho] at halike
    generalize hobject : A.object i = o at halike
    cases halike with
    | @pair a _ d _ ha hcdr =>
      obtain ⟨names, hnames, hformals, hreserved⟩ := ih hcdr hrest
      obtain ⟨name, hsymbol, -⟩ := (hd.item_at ha).eq_symbol hd.sound (eq_of_beq hcar)
      refine ⟨a :: names, .cons ha hnames, .cons (Store.item_of_object hobject) hsymbol hformals, ?_⟩
      have hname : h.symbolName car = .ok (A.name a) := by
        rw [hd.symbolName ha, Store.expect_of_kind (by rw [hsymbol]; rfl)]
        rfl
      unfold Store.reserved Heap.reserved at hreserved ⊢
      simp only [List.map_cons, List.filterMap_cons, hname, Except.toOption, List.find?_cons, hreserved]

end Portrays

theorem Heap.InOrder.numbers_eq (hh : h.InOrder) {is rs : List Nat}
    (hall : List.Forall₂ h.Numbered is rs) : is = rs.map h.number := by
  induction hall with
  | nil => rfl
  | cons hi _ ih => rw [List.map_cons, hi.eq hh.sound, ← ih]

/-- The bytes that a frame for `received` arguments takes at most. -/
def frameNeed (received arity : Nat) : Nat := fieldsSize 2 * (received + 1) + fieldsSize 4 * arity

theorem HeapM.exists_fixedParameters {arity received : Nat}
    (hcount : if rest then arity ≠ 0 ∧ arity - 1 ≤ received else received = arity) :
    ∃ fixed, fixedParameters arity rest received = .ok fixed := by
  cases rest with
  | false =>
    rw [if_neg (by decide)] at hcount
    exact ⟨_, by rw [fixedParameters, if_neg (by decide), if_pos hcount]⟩
  | true =>
    rw [if_pos rfl] at hcount
    exact ⟨_, by rw [fixedParameters, if_pos rfl, if_neg (by omega), if_neg (by omega)]⟩

/-- What becomes of a frame for the right number of arguments. -/
theorem Heap.InOrder.extend {formals args : Nat} {names : List Nat} (hh : h.InOrder)
    (hparent : parent ∈ h.records) (hframe : h.memory.kind parent = .environment)
    (hformals : formals ∈ h.records) (hnames : h.Parameters formals names false)
    (hfixed : HeapM.fixedParameters names.length rest (h.roots.size - args) = .ok fixed) :
    (∃ request g,
      HeapM.extend parent formals names.length rest args h = .error (.heapExhausted request) g ∧
      maxSize < h.top + frameNeed (h.roots.size - args) names.length) ∨
    match h.reserved names with
    | some name => ∃ g, HeapM.extend parent formals names.length rest args h =
        .error (.reservedName name) g
    | none => ∃ r g k B pos, HeapM.extend parent formals names.length rest args h = .ok r g ∧
        Portrays ⟨true, h.Anchored⟩ B (h.roots.toList.map h.number) pos g ∧ pos k r ∧
        h.things.BindsArguments (h.number parent) (names.map h.number) rest
          ((h.roots.toList.drop args).map h.number) k B := by
  have hd := hh.portrays
  have hp := numbered_number hparent
  have hf := numbered_number hformals
  obtain ⟨names', hnames', hlist, hreserved⟩ := hd.formals hf hnames
  obtain rfl := hh.numbers_eq hnames'
  rw [← hreserved]
  have hexpect : h.things.expect .environment "environment" (h.number parent) = .ok () :=
    (hd.expect_eq_ok hp).mpr hframe
  have hfixed' : HeapM.fixedParameters (names.map h.number).length rest
      ((h.roots.toList.drop args).map h.number).length = .ok fixed := by
    simpa using hfixed
  have hmeans := Store.extend_of_count hexpect hd.object_null (hd.lt hd.null) hlist hfixed'
  have hmeets : h.Meets False _ _ _ _ _ := hd.extend hp hf hexpect names.length rest args
  rw [List.length_map, Array.length_toList, ← List.map_drop] at hmeets
  rw [List.length_map] at hmeans
  generalize HeapM.extend parent formals names.length rest args h = result at hmeets ⊢
  generalize h.things.reserved (names.map h.number) = first at hmeans ⊢
  cases hmeets with
  | @exhausted fault g hfault hroom _ =>
    have hheap := hfault.2.resolve_right id
    cases fault <;> cases hheap
    exact Or.inl ⟨_, _, rfl, hroom⟩
  | refused hexpected _ =>
    refine Or.inr ?_
    cases first with
    | some name => exact ⟨_, by rw [Except.error.inj (hexpected.symm.trans hmeans)]⟩
    | none =>
      obtain ⟨k, B, hok, -⟩ := hmeans
      cases hexpected.symm.trans hok
  | @ok made r g hexpected hshows _ =>
    refine Or.inr ?_
    cases first with
    | some name => cases hexpected.symm.trans hmeans
    | none =>
      obtain ⟨k, B, hok, hbinds⟩ := hmeans
      obtain rfl := Except.ok.inj (hexpected.symm.trans hok)
      obtain ⟨pos, hd', hk⟩ := hshows
      exact ⟨r, g, k, B, pos, rfl, hd', hk, hbinds⟩

/-- A frame is made for a list of symbols, the parameters, and the values in the slots from `args` on.
With a wrong number of them nothing changes. With a right number, the first reserved name is refused if
there is one, and otherwise there is a new frame that binds the parameters to the values, while the
slots hold what they held; unless there is no room, which takes a heap that is almost full. -/
theorem extend_binds_arguments {size : UInt32} {h : Heap} (hh : h.Hosted size) {parent formals : Nat}
    {names : List Nat} (hparent : parent ∈ h.records) (hframe : h.memory.kind parent = .environment)
    (hformals : formals ∈ h.records) (hnames : h.Parameters formals names false) (rest : Bool)
    (args received : Nat) (hargs : args + received = h.roots.size) :
    (rest = false → received ≠ names.length →
      HeapM.extend parent formals names.length rest args h =
        .error (.wrongArgumentCount names.length received) h) ∧
    (rest = true → names.length = 0 →
      HeapM.extend parent formals names.length rest args h =
        .error (.malformed "rest parameter without a name") h) ∧
    (rest = true → names.length ≠ 0 → received < names.length - 1 →
      HeapM.extend parent formals names.length rest args h =
        .error (.tooFewArguments (names.length - 1) received) h) ∧
    ((if rest then names.length ≠ 0 ∧ names.length - 1 ≤ received else received = names.length) →
      (∃ request g,
        HeapM.extend parent formals names.length rest args h = .error (.heapExhausted request) g ∧
        maxSize < h.top + frameNeed received names.length) ∨
      match h.reserved names with
      | some name => ∃ g, HeapM.extend parent formals names.length rest args h =
          .error (.reservedName name) g
      | none => ∃ r g k B pos, HeapM.extend parent formals names.length rest args h = .ok r g ∧
          Portrays ⟨true, h.Anchored⟩ B (h.roots.toList.map h.number) pos g ∧ pos k r ∧
          h.things.BindsArguments (h.number parent) (names.map h.number) rest
            ((h.roots.toList.drop args).map h.number) k B) := by
  obtain rfl : h.roots.size - args = received := by omega
  have hmiscount : ∀ fault,
      HeapM.fixedParameters names.length rest (h.roots.size - args) = .error fault →
      HeapM.extend parent formals names.length rest args h = .error fault h := by
    intro fault hfault
    rw [HeapM.extend_run, hfault]
  refine ⟨?_, ?_, ?_, fun hcount => ?_⟩
  · rintro rfl hne
    exact hmiscount _ (by rw [HeapM.fixedParameters, if_neg (by decide), if_neg hne])
  · rintro rfl hnone
    exact hmiscount _ (by rw [HeapM.fixedParameters, if_pos rfl, if_pos hnone])
  · rintro rfl hne hfew
    exact hmiscount _ (by rw [HeapM.fixedParameters, if_pos rfl, if_neg hne, if_pos (by omega)])
  · obtain ⟨fixed, hfixed⟩ := HeapM.exists_fixedParameters hcount
    exact hh.inOrder.extend hparent hframe hformals hnames hfixed

theorem Heap.Hosted.foldl {size : UInt32} {ops : List HeapOp} (hh : h.Hosted size)
    (hops : HeapOp.ValidRun h ops) (hplain : ∀ op ∈ ops, op.captured = []) :
    (ops.foldl HeapOp.apply h).Hosted size := by
  induction ops generalizing h with
  | nil => exact hh
  | cons op ops ih =>
    have hnone : ∀ r ∈ op.captured, h.memory.kind r = .environment := by
      rw [hplain op (.head _)]
      exact nofun
    exact ih (hh.operate hops.1 hnone) hops.2 fun op hop => hplain op (.tail _ hop)

/-- A frame, the symbol `x` as a parameter and as a rest parameter, and three arguments. -/
def HeapOp.twice : List HeapOp :=
  [.environment none, .intern "x", .cons 33 0, .cons 33 55, .integer 1, .integer 2, .pushRoot 81,
    .pushRoot 94, .pushRoot 81]

/-- The rest parameter comes last, so `x` stands for a list of two arguments. -/
theorem extend_binds_arguments_twice :
    (HeapOp.twice.foldl HeapOp.apply (Heap.new 0)).Hosted 0 ∧
    (HeapOp.twice.foldl HeapOp.apply (Heap.new 0)).Parameters 68 [33, 33] false ∧
    ∃ r g k B pos,
      HeapM.extend 20 68 2 true 0 (HeapOp.twice.foldl HeapOp.apply (Heap.new 0)) = .ok r g ∧
      Portrays ⟨true, (HeapOp.twice.foldl HeapOp.apply (Heap.new 0)).Anchored⟩ B [8, 9, 8] pos g ∧ pos k r ∧
      (HeapOp.twice.foldl HeapOp.apply (Heap.new 0)).things.BindsArguments 4 [5, 5] true [8, 9, 8] k B := by
  have hrun : HeapOp.ValidRun (Heap.new 0) HeapOp.twice := by decide +kernel
  have hhosted : (HeapOp.twice.foldl HeapOp.apply (Heap.new 0)).Hosted 0 :=
    (Heap.Hosted.new : (Heap.new (0 : UInt32).toNat).Hosted 0).foldl hrun (by decide)
  have hfacts : ∀ h, h = HeapOp.twice.foldl HeapOp.apply (Heap.new 0) →
      (20 ∈ h.records ∧ h.memory.kind 20 = .environment ∧ 68 ∈ h.records) ∧
      (h.object 68 = .pair 33 55 ∧ h.object 55 = .pair 33 0 ∧ h.object 0 = .null ∧
        h.isSymbol 33 = true) ∧
      h.roots.toList = [81, 94, 81] ∧ [20, 33, 81, 94].map h.number = [4, 5, 8, 9] ∧
      h.top = 107 ∧ h.reserved [33, 33] = none := by
    rintro _ rfl
    decide +kernel
  generalize HeapOp.twice.foldl HeapOp.apply (Heap.new 0) = h at hhosted hfacts ⊢
  obtain ⟨⟨hparent, hframe, hformals⟩, ⟨hfirst, hsecond, hnull, hsymbol⟩, hroots, hnumbers, htop,
    hreserved⟩ := hfacts h rfl
  have hnames : h.Parameters 68 [33, 33] false := .pair hfirst hsymbol (.pair hsecond hsymbol (.null hnull))
  simp only [List.map_cons, List.map_nil, List.cons.injEq, and_true] at hnumbers
  obtain ⟨hparent', hx, hone, htwo⟩ := hnumbers
  have hsize : 0 + 3 = h.roots.size := by rw [← Array.length_toList, hroots]; rfl
  obtain ⟨-, -, -, hbinds⟩ :=
    extend_binds_arguments hhosted hparent hframe hformals hnames true 0 3 hsize
  rw [hreserved, hroots] at hbinds
  simp only [List.map_cons, List.map_nil, List.drop_zero, hparent', hx, hone, htwo] at hbinds
  refine ⟨hhosted, hnames, (hbinds (by decide)).resolve_left ?_⟩
  rintro ⟨_, _, _, hroom⟩
  rw [htop] at hroom
  exact absurd hroom (by decide)

/-! Heaps in which nothing can be reclaimed. -/

/-- Every record stays, and the last one ends where the heap does. -/
structure Heap.Solid (h : Heap) : Prop where
  stays : ∀ r ∈ h.records, h.memory.isPinned r = true ∨ r ∈ h.roots
  last : ∃ r ∈ h.records, r + h.memory.extent r = h.top

namespace Heap.Solid

variable {h g : Heap} {kept : Nat → Prop} {place : Nat → Nat}

theorem settled (hs : h.Solid) (hr : h.Relocation kept place g) (hmem : r ∈ h.records) :
    kept r ∧ place r = r := by
  have hall : ∀ q ∈ h.records, kept q := fun q hq =>
    (hs.stays q hq).elim (hr.pinned q hq) (hr.root q)
  exact ⟨hall r hmem, hr.settled r (hall r hmem) fun q hq _ => hall q hq⟩

theorem relocate (hs : h.Solid) (hr : h.Relocation kept place g) : g.top = h.top ∧ g.Solid := by
  have hrecord : ∀ {r}, r ∈ g.records → r ∈ h.records := fun {r} hmem => by
    obtain ⟨q, hq, rfl⟩ := (hr.records r).mp hmem
    rw [(hs.settled hr (hr.mem q hq)).2]
    exact hr.mem q hq
  have hmatch : ∀ {r}, r ∈ h.records → Matches (Goes kept place) h.memory r g.memory r :=
    fun {r} hmem => by
      obtain ⟨hkept, hplace⟩ := hs.settled hr hmem
      have := hr.record r hkept
      rwa [hplace] at this
  obtain ⟨r, hmem, hend⟩ := hs.last
  have hmem' : r ∈ g.records := by
    obtain ⟨hkept, hplace⟩ := hs.settled hr hmem
    exact (hr.records r).mpr ⟨r, hkept, hplace⟩
  have htop : g.top = h.top := by
    have hle := (hr.wellFormed.tiled.bounds hmem').2
    rw [(hmatch hmem).extent, hend] at hle
    exact Nat.le_antisymm hr.top_le hle
  refine ⟨htop, fun q hq => ?_, r, hmem', by rw [(hmatch hmem).extent, hend, htop]⟩
  rw [(hmatch (hrecord hq)).pinned, hr.roots, Array.mem_map]
  exact (hs.stays q (hrecord hq)).imp_right fun hroot => ⟨q, hroot, (hs.settled hr (hrecord hq)).2⟩

theorem withRoots (hs : h.Solid) (roots : Array Ref) (hmore : ∀ r ∈ h.roots, r ∈ roots) :
    { h with roots }.Solid :=
  ⟨fun r hr => (hs.stays r hr).imp_right (hmore r), hs.last⟩

variable {rules : Rules} {refs : List Nat} {kind : Kind} {words : (Nat → Nat) → List Nat}
  {bytes : List UInt8} {size : Nat} {result : EStateM.Result Fault Heap Ref}

/-- What is made in such a heap takes its bytes behind all others. -/
theorem makes (hs : h.Solid) (hm : h.Makes rules refs kind words bytes size result)
    (hroom : h.top + size ≤ maxSize) : ∃ r g, result = .ok r g ∧ r ∈ g.records ∧
      g.memory.kind r = kind ∧ (∀ q ∈ h.records, q ∈ g.records ∧ g.memory.kind q = h.memory.kind q) ∧
      g.top = h.top + size ∧ { g with roots := g.roots.push r }.Solid := by
  cases hm with
  | exhausted hr hfull =>
    have := hr.top_le
    omega
  | @ok kept place k m hr _ hm =>
    obtain ⟨htop, hk⟩ := hs.relocate hr
    have wf := hr.wellFormed
    have hrecords := hm.records wf
    refine ⟨_, _, rfl, by rw [hrecords]; simp, hm.written.kind, fun q hq => ?_, by rw [← htop],
      fun q hq => ?_, k.top, ?_, ?_⟩
    · obtain ⟨hkept, hplace⟩ := hs.settled hr hq
      have hmem : q ∈ k.records := (hr.records q).mpr ⟨q, hkept, hplace⟩
      have hkind := (hr.record q hkept).kind
      rw [hplace] at hkind
      rw [hrecords]
      exact ⟨List.mem_append_left _ hmem, ((hm.sameBody wf hmem).kind).trans hkind⟩
    · change q ∈ Heap.records { k with memory := m, top := k.top + size } at hq
      rw [hrecords] at hq
      rcases List.mem_append.mp hq with hq | hq
      · rw [isPinned_eq_of_byte (hm.byte wf hq)]
        exact (hk.stays q hq).imp_right fun hroot => Array.mem_push_of_mem _ hroot
      · obtain rfl := List.mem_singleton.mp hq
        exact Or.inr Array.mem_push_self
    · change k.top ∈ Heap.records { k with memory := m, top := k.top + size }
      rw [hrecords]
      simp
    · change k.top + m.extent k.top = k.top + size
      rw [hm.extent]

/-- There is no room for what does not fit behind all others. -/
theorem full (hs : h.Solid) (hm : h.Makes rules refs kind words bytes size result)
    (hfull : maxSize < h.top + size) : ∃ g, result = .error (.heapExhausted size) g := by
  cases hm with
  | exhausted _ _ => exact ⟨_, rfl⟩
  | ok hr _ hm =>
    have hfit := Nat.le_trans hm.fit hr.wellFormed.capacity_le
    rw [(hs.relocate hr).1] at hfit
    omega

end Heap.Solid

theorem Heap.solid_new (capacity : Nat) (hle : capacity ≤ maxSize) : (Heap.new capacity).Solid := by
  have hs := Sound.new hle Rules.bare
  have hfixture : ∀ p ∈ fixtures, p.1 ∈ (Heap.new capacity).records ∧
      (Heap.new capacity).memory.kind p.1 = p.2 ∧ (Heap.new capacity).memory.isPinned p.1 = true :=
    hs.fixture
  refine ⟨fun r hr => ?_, eof, (hfixture (eof, .eof) (by decide)).1, ?_⟩
  · obtain ⟨p, hp, rfl⟩ := mem_records_new hr
    exact Or.inl (hfixture p hp).2.2
  · rw [Memory.extent, (hfixture (eof, .eof) (by decide)).2.1]
    rfl

/-- A thing that is made and held. -/
theorem Heap.Hosted.hold {limit : UInt32} {rules : Rules} {run : HeapM Ref} {refs : List Nat}
    {words : (Nat → Nat) → List Nat} {bytes : List UInt8} {size : Nat} (hh : h.Hosted limit)
    (hs : h.Solid) (op : HeapOp) (hop : op.Valid h) (hplain : op.captured = [])
    (happly : op.apply h = h.after run) (hm : h.Makes rules refs kind words bytes size (run h))
    (hroom : h.top + size ≤ maxSize) :
    ∃ (g : Heap) (r : Nat), g.Hosted limit ∧ g.Solid ∧ g.top = h.top + size ∧ r ∈ g.records ∧
      g.memory.kind r = kind ∧ ∀ q ∈ h.records, q ∈ g.records ∧ g.memory.kind q = h.memory.kind q := by
  obtain ⟨r, g, hrun, hr, hkind, hold, htop, hsolid⟩ := hs.makes hm hroom
  have hg : g.Hosted limit := by
    have := hh.operate hop (by rw [hplain]; exact List.forall_mem_nil _)
    rwa [happly, Heap.after, hrun] at this
  have hpush : (HeapOp.pushRoot r).Valid g :=
    ⟨fun q hq => List.mem_singleton.mp hq ▸ hr, List.forall_mem_nil _, Nat.zero_le _⟩
  exact ⟨_, r, hg.operate hpush (List.forall_mem_nil _), hsolid, htop, hr, hkind, hold⟩

/-- A heap may hold a frame and have no room for another one, even without any parameters. -/
theorem extend_in_full_heap : ∃ (h : Heap) (parent : Nat), h.Hosted 4294967295 ∧ parent ∈ h.records ∧
    h.memory.kind parent = .environment ∧ null ∈ h.records ∧ h.Parameters null [] false ∧
    ∃ g, HeapM.extend parent null 0 false h.roots.size h = .error (.heapExhausted (fieldsSize 2)) g := by
  have hnew : (Heap.new (4294967295 : UInt32).toNat).Hosted 4294967295 := .new
  have hsolid := Heap.solid_new (4294967295 : UInt32).toNat (by decide)
  have htop : (Heap.new (4294967295 : UInt32).toNat).top = 20 := rfl
  generalize Heap.new (4294967295 : UInt32).toNat = h₀ at hnew hsolid htop
  obtain ⟨h₁, parent, hh₁, hs₁, htop₁, hparent, hkind, -⟩ := hnew.hold hsolid (.environment none)
    ⟨nofun, nofun, Nat.zero_le _⟩ rfl rfl
    (HeapM.makes_environment hnew.inOrder.sound nofun) (by rw [htop]; decide)
  obtain ⟨h₂, text, hh₂, hs₂, htop₂, -, -, hold⟩ := hh₁.hold hs₁ (.makeString 1073741813 (Char.ofNat 0))
    ⟨nofun, nofun, Nat.zero_le _⟩ rfl rfl
    (HeapM.makes_makeString hh₁.inOrder.sound _ _ (by decide)) (by rw [htop₁, htop]; decide)
  obtain ⟨hparent', hkind'⟩ := hold parent hparent
  have hsound := hh₂.inOrder.sound
  obtain ⟨hnull, hnullKind, -⟩ := hsound.fixture (null, .null) (by decide)
  refine ⟨h₂, parent, hh₂, hparent', hkind'.trans hkind, hnull, .null ?_, ?_⟩
  · rw [Heap.object, Heap.kind, hnullKind]
  have hroots : ∀ r ∈ ((h₂.roots.push parent).push null).push null, r ∈ h₂.records := by
    intro r hr
    simp only [Array.mem_push] at hr
    rcases hr with ((hr | rfl) | rfl) | rfl
    · exact hsound.wf.root r hr
    · exact hparent'
    · exact hnull
    · exact hnull
  have hsound' := hsound.withRoots _ hroots
  have hsolid' := hs₂.withRoots (((h₂.roots.push parent).push null).push null) fun r hr => by
    simp only [Array.mem_push]
    exact Or.inl (Or.inl (Or.inl hr))
  have hroot : Heap.root { h₂ with roots := ((h₂.roots.push parent).push null).push null } h₂.roots.size =
      parent := by
    rw [Heap.root, Array.getElem?_push, if_neg (by simp only [Array.size_push]; omega),
      Array.getElem?_push, if_neg (by simp only [Array.size_push]; omega), Array.getElem?_push_size]
    rfl
  have hmakes := HeapM.makes_environment hsound'
    (fun r (hr : r ∈ some parent) => Option.mem_some.mp hr ▸ ⟨hparent', hkind'.trans hkind⟩)
  obtain ⟨g, hfull⟩ := hsolid'.full hmakes (by
    change maxSize < h₂.top + _
    rw [htop₂, htop₁, htop]
    decide)
  refine ⟨g, ?_⟩
  rw [HeapM.extend_run, Nat.sub_self]
  change ((pure null : HeapM Ref) >>= _) _ = _
  rw [pure_bind, HeapM.pushRoot_bind, HeapM.root_bind, hroot]
  exact HeapM.bind_error hfull

end ArenaScheme
