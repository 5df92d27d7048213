import ArenaScheme.Proofs.Trampoline

/-! Parameter lists. A walk over the parameters of a closure comes to the end of the list, or to a place
where a parameter is no symbol, or it goes on without end, since it does not notice that it has been
somewhere before. In the first case a closure is made. -/

namespace ArenaScheme

open Memory Heap

variable {rest : Bool} {names' : List Nat} {m : Machine} {body env formals i name r : Nat}

namespace Heap

/-- The list has these parameters; the last one takes what is left of the arguments or does not. -/
inductive Parameters (h : Heap) : Nat → List Nat → Bool → Prop
  | null {r : Nat} : h.object r = .null → Parameters h r [] false
  | symbol {r : Nat} : h.object r = .symbol → Parameters h r [r] true
  | pair {r car cdr : Nat} {names : List Nat} {rest : Bool} : h.object r = .pair car cdr →
    h.isSymbol car = true → Parameters h cdr names rest → Parameters h r (car :: names) rest

/-- After some parameters there is something that is none. -/
inductive BadParameters (h : Heap) : Nat → Prop
  | stop {r : Nat} : h.object r ≠ .null → h.object r ≠ .symbol →
    (∀ car cdr, h.object r = .pair car cdr → h.isSymbol car = false) → BadParameters h r
  | pair {r car cdr : Nat} : h.object r = .pair car cdr → h.isSymbol car = true →
    BadParameters h cdr → BadParameters h r

/-- There is always another parameter. -/
def EndlessParameters (h : Heap) (r : Nat) : Prop :=
  ∃ chain : Nat → Nat, chain 0 = r ∧
    ∀ k, ∃ car, h.object (chain k) = .pair car (chain (k + 1)) ∧ h.isSymbol car = true

variable {h : Heap} {r car cdr : Nat} {names : List Nat} {rest : Bool}

theorem EndlessParameters.next (hr : h.EndlessParameters r) :
    ∃ car cdr, h.object r = .pair car cdr ∧ h.isSymbol car = true ∧ h.EndlessParameters cdr := by
  obtain ⟨chain, rfl, hchain⟩ := hr
  obtain ⟨car, ho, hcar⟩ := hchain 0
  exact ⟨car, chain 1, ho, hcar, fun k => chain (k + 1), rfl, fun k => hchain (k + 1)⟩

/-- A list without an end, good or bad, has no end. -/
theorem parameters_cases (h : Heap) (r : Nat) :
    (∃ names rest, h.Parameters r names rest) ∨ h.BadParameters r ∨ h.EndlessParameters r := by
  by_cases hend : (∃ names rest, h.Parameters r names rest) ∨ h.BadParameters r
  · exact hend.imp_right Or.inl
  -- from a place where the walk does not end it goes on to another one
  have hnext : ∀ s : { s // ¬ ((∃ names rest, h.Parameters s names rest) ∨ h.BadParameters s) },
      ∃ t : { t // ¬ ((∃ names rest, h.Parameters t names rest) ∨ h.BadParameters t) },
        ∃ car, h.object s.1 = .pair car t.1 ∧ h.isSymbol car = true := by
    rintro ⟨s, hs⟩
    have hpair : ∃ car cdr, h.object s = .pair car cdr ∧ h.isSymbol car = true := by
      by_contra hno
      refine hs (Or.inr (.stop (fun ho => ?_) (fun ho => ?_) fun car cdr ho => ?_))
      · exact hs (Or.inl ⟨_, _, .null ho⟩)
      · exact hs (Or.inl ⟨_, _, .symbol ho⟩)
      · exact Bool.eq_false_iff.mpr fun hcar => hno ⟨car, cdr, ho, hcar⟩
    obtain ⟨car, cdr, ho, hcar⟩ := hpair
    refine ⟨⟨cdr, fun hcdr => hs ?_⟩, car, ho, hcar⟩
    rcases hcdr with ⟨names, rest, hcdr⟩ | hcdr
    · exact Or.inl ⟨_, _, .pair ho hcar hcdr⟩
    · exact Or.inr (.pair ho hcar hcdr)
  choose next hstep using hnext
  refine Or.inr (Or.inr ⟨fun k => (Nat.iterate next k ⟨r, hend⟩).1, rfl, fun k => ?_⟩)
  simp only [Function.iterate_succ_apply']
  exact hstep _

theorem Parameters.not_bad (hp : h.Parameters r names rest) : ¬ h.BadParameters r := by
  intro hbad
  induction hp with
  | null ho =>
    cases hbad with
    | stop hnull _ _ => exact hnull ho
    | pair ho' _ _ => cases ho.symm.trans ho'
  | symbol ho =>
    cases hbad with
    | stop _ hsymbol _ => exact hsymbol ho
    | pair ho' _ _ => cases ho.symm.trans ho'
  | pair ho hcar _ ih =>
    cases hbad with
    | stop _ _ hpair => exact absurd hcar (by rw [hpair _ _ ho]; decide)
    | pair ho' _ hcdr =>
      cases ho.symm.trans ho'
      exact ih hcdr

theorem EndlessParameters.not_parameters (hr : h.EndlessParameters r) :
    ¬ h.Parameters r names rest := by
  intro hp
  induction hp with
  | null ho =>
    obtain ⟨_, _, ho', -⟩ := hr.next
    cases ho.symm.trans ho'
  | symbol ho =>
    obtain ⟨_, _, ho', -⟩ := hr.next
    cases ho.symm.trans ho'
  | pair ho _ _ ih =>
    obtain ⟨_, _, ho', -, hcdr⟩ := hr.next
    cases ho.symm.trans ho'
    exact ih hcdr

theorem EndlessParameters.not_bad (hr : h.EndlessParameters r) : ¬ h.BadParameters r := by
  intro hbad
  induction hbad with
  | stop _ _ hpair =>
    obtain ⟨_, _, ho, hcar, -⟩ := hr.next
    exact absurd hcar (by rw [hpair _ _ ho]; decide)
  | pair ho _ _ ih =>
    obtain ⟨_, _, ho', -, hcdr⟩ := hr.next
    cases ho.symm.trans ho'
    exact ih hcdr

end Heap

/-! What the walk does. It changes the roots only, so it sees what there was when it started. -/

/-- The machine with other roots. -/
def Machine.withRoots (m : Machine) (roots : Array Ref) : Machine :=
  { m with heap := { m.heap with roots } }

section

variable {m : Machine} {r car cdr : Nat} {rounds : Nat} {roots : Array Ref}

theorem pushParameters_pair (ho : m.heap.object r = .pair car cdr) (hcar : m.heap.isSymbol car = true) :
    pushParameters (rounds + 1) r (m.withRoots roots) =
      pushParameters rounds cdr (m.withRoots (roots.push car)) := by
  have ho' : (m.withRoots roots).heap.object r = .pair car cdr := ho
  have hcar' : (m.withRoots roots).heap.isSymbol car = true := hcar
  conv_lhs => unfold pushParameters
  simp only [Eval.object, bind, EStateM.bind, get, getThe, MonadStateOf.get, EStateM.get, pure,
    EStateM.pure, ho', hcar', if_true]
  rfl

theorem pushParameters_endless (hr : m.heap.EndlessParameters r) (rounds : Nat)
    (roots : Array Ref) : ∃ m', pushParameters rounds r (m.withRoots roots) = .error .outOfFuel m' := by
  induction rounds generalizing r roots with
  | zero => exact ⟨_, rfl⟩
  | succ rounds ih =>
    obtain ⟨car, cdr, ho, hcar, hcdr⟩ := hr.next
    rw [pushParameters_pair ho hcar]
    exact ih hcdr _

theorem pushParameters_bad (hr : m.heap.BadParameters r) : ∃ enough, ∀ rounds ≥ enough, ∀ roots,
    ∃ m', pushParameters rounds r (m.withRoots roots) =
      .error (.fault (.malformed "parameters must be symbols")) m' := by
  induction hr with
  | @stop r hnull hsymbol hpair =>
    refine ⟨1, fun rounds hrounds roots => ?_⟩
    obtain ⟨rounds, rfl⟩ : ∃ k, rounds = k + 1 := ⟨rounds - 1, by omega⟩
    have hobject : ∀ o, m.heap.object r = o → (m.withRoots roots).heap.object r = o := fun _ ho => ho
    unfold pushParameters
    simp only [Eval.object, bind, EStateM.bind, get, getThe, MonadStateOf.get, EStateM.get, pure,
      EStateM.pure]
    cases ho : m.heap.object r with
    | null => exact absurd ho hnull
    | symbol => exact absurd ho hsymbol
    | pair car cdr =>
      have hcar : (m.withRoots roots).heap.isSymbol car = false := hpair car cdr ho
      simp only [hobject _ ho]
      refine ⟨m.withRoots roots, ?_⟩
      change (if (m.withRoots roots).heap.isSymbol car = true then _ else
        Eval.fail (.malformed "parameters must be symbols") : Eval Bool) (m.withRoots roots) = _
      rw [if_neg (by rw [hcar]; decide)]
      rfl
    | _ =>
      simp only [hobject _ ho]
      exact ⟨_, rfl⟩
  | pair ho hcar _ ih =>
    obtain ⟨enough, henough⟩ := ih
    refine ⟨enough + 1, fun rounds hrounds roots => ?_⟩
    obtain ⟨rounds, rfl⟩ : ∃ k, rounds = k + 1 := ⟨rounds - 1, by omega⟩
    rw [pushParameters_pair ho hcar]
    exact henough rounds (by omega) _

end

/-- Making a closure starts with the walk. -/
theorem makeClosure_of_error {m' : Machine} {rounds : Nat} {stop : Stop} (hbody : body ≠ Heap.null)
    (hwalk : pushParameters rounds formals
      (m.withRoots (((m.heap.roots.push name).push body).push env)) = .error stop m') :
    makeClosure rounds name formals body env m = .error stop m' := by
  have hbind : ∀ {α : Type} (f : Bool → Eval α), (pushParameters rounds formals >>= f)
      (m.withRoots (((m.heap.roots.push name).push body).push env)) = .error stop m' := by
    intro α f
    simp only [bind, EStateM.bind, hwalk]
  unfold makeClosure
  rw [if_neg hbody]
  exact hbind _

/-! What is made in a store. -/

namespace Store

variable {A B : Store} {n i tail : Nat} {xs : List Nat}

/-- A proper list of which every pair is newer than the first `n` things. -/
inductive FreshList (A : Store) (n : Nat) : List Nat → Nat → Prop
  | nil {i : Nat} : A.object i = .null → FreshList A n [] i
  | cons {i x cdr : Nat} {xs : List Nat} : n ≤ i → A.item i = .pair x cdr → FreshList A n xs cdr →
    FreshList A n (x :: xs) i

theorem item_of_extends (hAB : A.items <+: B.items) (hi : i < A.items.length) : B.item i = A.item i := by
  obtain ⟨more, hmore⟩ := hAB
  unfold item
  rw [← hmore, List.getElem?_append_left hi]

theorem extends_list (A : Store) (tail : Nat) (xs : List Nat) :
    A.items <+: (A.list tail xs).2.items := by
  induction xs with
  | nil => exact List.prefix_refl _
  | cons x xs ih => exact ih.trans (List.prefix_append _ _)

/-- A list is made of new pairs, whatever is made afterwards. -/
theorem freshList_list (htail : A.object tail = .null) (hlt : tail < A.items.length) (xs : List Nat)
    (hB : (A.list tail xs).2.items <+: B.items) :
    B.FreshList A.items.length xs (A.list tail xs).1 := by
  induction xs with
  | nil => exact .nil ((congrArg Item.object (item_of_extends hB hlt)).trans htail)
  | cons x xs ih =>
    have hrest : (A.list tail xs).2.items <+: (A.list tail (x :: xs)).2.items := List.prefix_append _ _
    have hnew : (A.list tail xs).2.items.length < (A.list tail (x :: xs)).2.items.length := by
      simp [list, make]
    refine .cons (extends_list A tail xs).length_le ((item_of_extends hB hnew).trans ?_)
      (ih (hrest.trans hB))
    simp [list, make, item]

/-- In the later store, a closure has been made that has these parameters. -/
structure MakesClosure (A : Store) (begin name : Nat) (names : List Nat) (rest : Bool)
    (body env i : Nat) (B : Store) : Prop where
  keeps : A.items <+: B.items
  closure : ∃ formals form, B.item i =
      .closure { name, formals, env, body := form, arity := names.length, rest } ∧
    B.item form = .pair begin body ∧ B.FreshList A.items.length names formals

end Store

namespace Semantics

variable {W : World} {body formals : Nat} {names : List Nat} {rest : Bool} {rounds : Nat}

theorem makeClosure_of_parameters (name env : Nat) (hbody : body ≠ Store.null)
    (hnull : W.store.object Store.null = .null) (hlt : Store.null < W.store.items.length)
    (hnames : parameters rounds formals W = .ok (names, rest) W) :
    ∃ i B, makeClosure rounds name formals body env W = .ok i { W with store := B } ∧
      W.store.MakesClosure W.keywords.begin name names rest body env i B := by
  let L := W.store.list Store.null names
  let P := L.2.make (.pair W.keywords.begin body)
  let C := P.2.make (.closure
    { name, formals := L.1, env, body := P.1, arity := names.length, rest })
  have hL : W.store.items <+: L.2.items := Store.extends_list _ _ _
  have hP : L.2.items <+: P.2.items := List.prefix_append _ _
  have hC : P.2.items <+: C.2.items := List.prefix_append _ _
  refine ⟨C.1, C.2, ?_, hL.trans (hP.trans hC), L.1, P.1, ?_, ?_, ?_⟩
  · unfold makeClosure
    rw [if_neg hbody]
    exact Act.bind_eq hnames
  · simp [C, Store.make, Store.item]
  · have hform : P.1 < P.2.items.length := by simp [P, Store.make]
    rw [Store.item_of_extends hC hform]
    simp [P, Store.make, Store.item]
  · exact Store.freshList_list hnull hlt names (hP.trans hC)

end Semantics

/-- The parameters of a list in the heap are those of the list that it shows. -/
theorem Scene.Faithful.parameters {ground : Ground} {S : Scene}
    (hS : S.Faithful ground) (hi : S.pos i r) (hp : S.machine.heap.Parameters r names' rest) :
    ∃ names, List.Forall₂ S.pos names names' ∧ ∀ rounds > names'.length,
      Semantics.parameters rounds i S.world = .ok (names, rest) S.world := by
  induction hp generalizing i with
  | @null r ho =>
    have halike := hS.toDepicts.object hi
    rw [ho] at halike
    refine ⟨[], .nil, fun rounds hrounds => ?_⟩
    obtain ⟨rounds, rfl⟩ : ∃ k, rounds = k + 1 := ⟨rounds - 1, by omega⟩
    rw [Semantics.parameters, Act.object_bind]
    generalize S.world.store.object i = o at halike ⊢
    cases halike
    rfl
  | @symbol r ho =>
    have halike := hS.toDepicts.object hi
    rw [ho] at halike
    refine ⟨[i], .cons hi .nil, fun rounds hrounds => ?_⟩
    obtain ⟨rounds, rfl⟩ : ∃ k, rounds = k + 1 := ⟨rounds - 1, by omega⟩
    rw [Semantics.parameters, Act.object_bind]
    generalize S.world.store.object i = o at halike ⊢
    cases halike
    rfl
  | @pair r car cdr names' rest ho hcar _ ih =>
    have halike := hS.toDepicts.object hi
    rw [ho] at halike
    generalize hobject : S.world.store.object i = o at halike
    cases halike with
    | @pair a _ d _ ha hd =>
      obtain ⟨names, hnames, hrun⟩ := ih hd
      have hsymbol : S.world.store.object a = .symbol :=
        (hS.toDepicts.object ha).eq_symbol_iff.mpr (Heap.isSymbol_iff.mp hcar)
      refine ⟨a :: names, .cons ha hnames, fun rounds hrounds => ?_⟩
      obtain ⟨rounds, rfl⟩ : ∃ k, rounds = k + 1 := ⟨rounds - 1, by omega⟩
      rw [List.length_cons] at hrounds
      rw [Semantics.parameters, Act.object_bind, hobject]
      change (if S.world.store.object a = .symbol then _ else _ : Act (List Nat × Bool)) S.world = _
      rw [if_pos hsymbol]
      exact Act.bind_eq (hrun rounds (by omega))

/-- With parameters a closure is made, unless there is no room for it. -/
theorem Machine.Reflects.makeClosure {W : World} {slots : List Nat} {link : Nat → Nat → Prop}
    {j b e : Nat} (hm : m.Reflects W slots link) (hname : link i name) (hformals : link j formals)
    (hbody : link b body) (henv : link e env) (hk : m.heap.memory.kind env = .environment)
    (hne : body ≠ Heap.null) (hp : m.heap.Parameters formals names' rest) :
    ∃ names, List.Forall₂ link names names' ∧ ∀ rounds > names'.length,
      Exhausted (ArenaScheme.makeClosure rounds name formals body env m) ∨
      ∃ r m' link' k B, ArenaScheme.makeClosure rounds name formals body env m = .ok r m' ∧
        m'.Reflects { W with store := B } slots link' ∧ link' k r ∧
        W.store.MakesClosure W.keywords.begin i names rest b e k B := by
  obtain ⟨ground, hS⟩ := hm
  obtain ⟨names, hnames, hrun⟩ := hS.parameters hformals hp
  refine ⟨names, hnames, fun rounds hrounds => ?_⟩
  have hb : b ≠ Store.null := fun heq => hne ((hS.toDepicts.eq_null_iff hbody).mp heq)
  obtain ⟨k, B, hmade, hcloses⟩ := Semantics.makeClosure_of_parameters i e hb
    hS.object_null (hS.lt hS.null) (hrun rounds hrounds)
  have hmirrors := Tracks.makeClosure hS (Nat.le_refl _) rounds hname hformals hbody henv
    ((hS.toDepicts.kind henv).trans hk)
  unfold Mirrors Tracks at hmirrors
  rw [hmade] at hmirrors
  generalize hanswer : ArenaScheme.makeClosure rounds name formals body env m = answer at hmirrors ⊢
  cases hmirrors with
  | @ok T r _ hT _ harrives =>
    obtain ⟨k', heq, hslots, hk'⟩ := harrives
    obtain ⟨rfl, hworld⟩ := EStateM.Result.ok.inj heq
    refine Or.inr ⟨r, T.machine, T.pos, k, B, rfl, ⟨ground, ?_⟩, hk', hcloses⟩
    have hscene : (⟨T.machine, { W with store := B }, slots, T.pos⟩ : Scene) = T := by
      change T.slots = slots at hslots
      change { W with store := B } = T.world at hworld
      rw [hworld, ← hslots]
    exact hscene ▸ hT
  | exhausted hfault => exact Or.inl ⟨_, _, rfl, hfault⟩

/-- A parameter list has parameters, or something in it is no parameter, or it has no end. In the first
case a closure is made of them, unless the heap is exhausted; in the second one the list is refused; but
in the third one there is no answer, however many rounds the walk is given. This holds of every machine,
and a machine that shows a world shows the closure there. -/
theorem makeClosure_answers_iff_ends (m : Machine) :
    (∀ size, Machine.Confined size m →
      ∃ W slots link, m.Reflects W slots link ∧ ∀ r ∈ m.heap.records, ∃ i, link i r) ∧
    ∀ name formals body env : Nat, body ≠ Heap.null →
      ((∃ names rest, m.heap.Parameters formals names rest) ∨ m.heap.BadParameters formals ∨
        m.heap.EndlessParameters formals) ∧
      (m.heap.EndlessParameters formals →
        ¬ m.heap.BadParameters formals ∧ (∀ names rest, ¬ m.heap.Parameters formals names rest) ∧
        ∀ rounds, ∃ m', makeClosure rounds name formals body env m = .error .outOfFuel m') ∧
      (m.heap.BadParameters formals →
        (∀ names rest, ¬ m.heap.Parameters formals names rest) ∧
        ∃ enough, ∀ rounds ≥ enough, ∃ m', makeClosure rounds name formals body env m =
          .error (.fault (.malformed "parameters must be symbols")) m') ∧
      ∀ names' rest, m.heap.Parameters formals names' rest →
        ∀ W slots link, m.Reflects W slots link → ∀ i j b e, link i name → link j formals →
          link b body → link e env → m.heap.memory.kind env = .environment →
          ∃ names, List.Forall₂ link names names' ∧ ∀ rounds > names'.length,
            Exhausted (makeClosure rounds name formals body env m) ∨
            ∃ r m' link' k B, makeClosure rounds name formals body env m = .ok r m' ∧
              m'.Reflects { W with store := B } slots link' ∧ link' k r ∧
              W.store.MakesClosure W.keywords.begin i names rest b e k B := by
  refine ⟨fun size hc => ⟨_, _, _, ⟨_, hc.faithful⟩, fun r hr => ⟨_, numbered_number hr, trivial⟩⟩, ?_⟩
  intro name formals body env hbody
  refine ⟨m.heap.parameters_cases formals, fun hendless => ?_, fun hbad => ?_, ?_⟩
  · refine ⟨hendless.not_bad, fun _ _ => hendless.not_parameters, fun rounds => ?_⟩
    obtain ⟨m', hwalk⟩ := pushParameters_endless hendless rounds _
    exact ⟨m', makeClosure_of_error hbody hwalk⟩
  · refine ⟨fun _ _ hp => hp.not_bad hbad, ?_⟩
    obtain ⟨enough, henough⟩ := pushParameters_bad hbad
    refine ⟨enough, fun rounds hrounds => ?_⟩
    obtain ⟨m', hwalk⟩ := henough rounds hrounds _
    exact ⟨m', makeClosure_of_error hbody hwalk⟩
  · intro names' rest hp W slots link hreflects i j b e hname hformals hb henv hk
    exact hreflects.makeClosure hname hformals hb henv hk hbody hp

/-- A pair that is made its own tail starts an endless list, if its element is a symbol. -/
theorem Heap.endless_setCdr {rules : Rules} {h : Heap} {car cdr : Nat} (hs : h.Sound rules)
    (hr : r ∈ h.records) (ho : h.object r = .pair car cdr) (hcar : h.isSymbol car = true) :
    ((HeapOp.setCdr r r).apply h).EndlessParameters r := by
  obtain ⟨hk, rfl, -⟩ := kind_of_pair ho
  have hset := fieldSet_setField hs.wf.tiled hs.wf.top_le hr
    (Or.inl (by rw [pair_references hk]; decide) : h.memory.Settable r 1)
    (Nat.lt_trans (hs.wf.lt_top hr) hs.wf.top_lt)
  have happly : (HeapOp.setCdr r r).apply h = { h with memory := h.memory.setField r 1 r } := by
    have hexpect : h.expectKind .pair "pair" r = .ok () := by
      unfold Heap.expectKind Heap.kind
      rw [if_pos hk]
    change h.after (HeapM.setCdr r r) = _
    unfold Heap.after HeapM.setCdr
    simp only [bind, EStateM.bind, HeapM.query, hexpect]
    rfl
  rw [happly]
  generalize h.memory.setField r 1 r = memory at hset
  have hextent : 9 + 4 * 0 ≤ h.memory.extent r := by simp [Memory.extent, hk, fieldsSize]
  have hfirst : memory.field r 0 = h.memory.field r 0 :=
    hset.field hr (fun _ => Nat.zero_ne_one) hextent
  have hkind : memory.kind r = .pair := (hset.kind hr).trans hk
  refine ⟨fun _ => r, rfl, fun _ => ⟨h.memory.field r 0, ?_, ?_⟩⟩
  · simp only [Heap.object, Heap.kind, hkind, Heap.field, hfirst, hset.self]
  · have hmem := hs.pair_field_mem hr hk (k := 0) (by decide)
    rw [Heap.isSymbol] at hcar ⊢
    simpa only [Heap.kind, hset.kind hmem] using hcar

/-- A list of the symbol `begin` that goes round in a circle. -/
theorem makeClosure_answers_iff_ends_circle :
    ∃ (m : Machine) (formals : Nat), Machine.Confined 0 m ∧ Heap.truth ≠ Heap.null ∧
      m.heap.EndlessParameters formals ∧ ∀ rounds, ∃ m',
        makeClosure rounds m.keywords.lambda formals Heap.truth m.globals m = .error .outOfFuel m' := by
  obtain ⟨ground, B, hB, -, hroom⟩ := exists_grown 0
  have hbegin := hB.faithful.stays hB.faithful.keywords.begin
  have hnull := hB.faithful.null
  obtain ⟨T, hT⟩ := hB.pair hbegin hnull (hroom (by decide))
  have hpos := hT.pos (k := 0) (by simp)
  generalize T.machine.heap.root (B.slots.length + 0) = r at hpos
  have hr : r ∈ T.machine.heap.records := hT.faithful.mem hpos
  have hworld : B.world.keywords = T.world.keywords := by rw [hT.world]
  have hitem := congrArg Item.object (hT.item (k := 0) rfl)
  rw [hworld] at hitem
  have ho := hT.faithful.toDepicts.object_pair hitem hpos
    (hT.faithful.stays hT.faithful.keywords.begin) hT.faithful.null
  have hsymbol : T.machine.heap.isSymbol T.machine.keywords.begin = true := by
    have hbegin : T.machine.keywords.begin ∈ T.machine.keywords.symbols := by
      simp [Keywords.symbols]
    rw [Heap.isSymbol, Heap.kind, (hT.confined.strict.keywords _ hbegin).2.2]
    rfl
  have hop : (HeapOp.setCdr r r).Valid T.machine.heap :=
    ⟨by simp [HeapOp.refs, hr], List.forall_mem_nil _, Nat.zero_le _⟩
  have hconfined := hT.confined.operate hop (List.forall_mem_nil _)
  have hendless := Heap.endless_setCdr hT.faithful.sound hr ho hsymbol
  generalize hm : ({ T.machine with heap := (HeapOp.setCdr r r).apply T.machine.heap } : Machine) = m
    at hconfined
  have hendless' : m.heap.EndlessParameters r := hm ▸ hendless
  exact ⟨m, r, hconfined, by decide, hendless',
    (((makeClosure_answers_iff_ends m).2 _ r _ _ (by decide)).2.1 hendless').2.2⟩

end ArenaScheme
