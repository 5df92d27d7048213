import ArenaScheme.Proofs.Applications
import ArenaScheme.Proofs.BuiltForms
import ArenaScheme.Proofs.CallMeanings
import ArenaScheme.Proofs.Permanence
import ArenaScheme.Proofs.RootStack

/-! The evaluator is a loop over two slots of a heap that moves its records. It computes what the
definitional interpreter computes on a store of things that never move, where a form in tail position
is evaluated like every other form. -/

namespace ArenaScheme

open Memory Heap

/-- The machine shows the world. Its slots hold `slots`, and what is linked to a number is the thing with
that number. -/
def Machine.Reflects (m : Machine) (W : World) (slots : List Nat) (link : Nat → Nat → Prop) : Prop :=
  ∃ ground, Scene.Faithful ground ⟨m, W, slots, link⟩

/-- The answer of a machine shows the answer of a world. Slots hold what they held before. -/
inductive Reflected (slots : List Nat) :
    EStateM.Result Stop Machine Ref → EStateM.Result Stop World Nat → Prop
  | value {m : Machine} {W : World} {link : Nat → Nat → Prop} {r i : Nat} :
    m.Reflects W slots link → link i r → Reflected slots (.ok r m) (.ok i W)
  | stop {m : Machine} {W : World} {link : Nat → Nat → Prop} {stop : Stop} :
    m.Reflects W slots link → Reflected slots (.error stop m) (.error stop W)

/-- The machine stopped for want of room. -/
def Exhausted (p : EStateM.Result Stop Machine Ref) : Prop :=
  ∃ fault m, p = .error (.fault fault) m ∧ fault.Exceeds m.heap.top

/-- `answer` is what the definitional interpreter comes to, however much fuel it takes. -/
def BigStep (form env : Nat) (W : World) (answer : EStateM.Result Stop World Nat) : Prop :=
  (∃ fuel, (Semantics.recursion fuel).evaluate form env W = answer) ∧
    ∀ W', answer ≠ .error .outOfFuel W'

/-- An answer stays what it is with more fuel. -/
theorem Act.Below.eq_of_ne {α : Type} {x y : Act α} {W : World} (h : x.Below y)
    (hne : ∀ W', x W ≠ .error .outOfFuel W') : y W = x W :=
  (h W).elim (fun ⟨W', hout⟩ => absurd hout (hne W')) Eq.symm

namespace BigStep

variable {form env : Nat} {W : World} {answer answer' : EStateM.Result Stop World Nat}

theorem unique (h : BigStep form env W answer) (h' : BigStep form env W answer') :
    answer = answer' := by
  obtain ⟨⟨fuel, rfl⟩, hne⟩ := h
  obtain ⟨⟨fuel', rfl⟩, hne'⟩ := h'
  have hbelow := (Semantics.recursion_below (Nat.le_max_left fuel fuel')).evaluate form env
  have hbelow' := (Semantics.recursion_below (Nat.le_max_right fuel fuel')).evaluate form env
  exact (hbelow.eq_of_ne hne).symm.trans (hbelow'.eq_of_ne hne')

/-- An interpreter of enough pace comes to the answer. -/
theorem exists_pace (h : BigStep form env W answer) :
    ∃ enough, ∀ fuel, enough ≤ fuel → (pace fuel).evaluate form env W = answer := by
  obtain ⟨⟨k, rfl⟩, hne⟩ := h
  refine ⟨3 * k + 3, fun fuel hfuel => ?_⟩
  obtain ⟨-, hpace⟩ := Semantics.below_pace k hfuel
  exact ((hpace (Semantics.recursion k).tail fun _ _ => .refl _).evaluate form env).eq_of_ne hne

theorem of_pace {fuel : Nat} (h : (pace fuel).evaluate form env W = answer)
    (hne : ∀ W', answer ≠ .error .outOfFuel W') : BigStep form env W answer := by
  subst h
  obtain ⟨k, hk⟩ := Semantics.exists_pace_below fuel
  have hbelow := (hk (fun _ _ => Act.outOfFuel) 0 fun _ _ => .refl _).evaluate form env
  exact ⟨⟨0 + k, hbelow.eq_of_ne hne⟩, hne⟩

end BigStep

/-! From computations beside each other to answers. -/

theorem Machine.release_eq_self {m : Machine} {n : Nat} (hn : m.heap.roots.size ≤ n) :
    m.release n = m := by
  have hroots : m.heap.roots.shrink n = m.heap.roots := by
    apply Array.toList_inj.mp
    rw [Array.toList_shrink, List.take_of_length_le (by simpa using hn)]
  simp only [Machine.release, hroots]

section

variable {ground : Ground} {S : Scene}

/-- A computation that leaves no roots of its own ends as its world does. -/
theorem Tracks.reflected {x : Eval Ref} {y : Act Nat} (hS : S.Faithful ground)
    (hshallow : Machine.Shallow x) (h : Mirrors ground S.slots.length S (Gives S.slots) x y) :
    Reflected S.slots (x S.machine) (y S.world) ∨ Exhausted (x S.machine) := by
  have hsize := hshallow S.machine
  unfold Machine.after at hsize
  unfold Mirrors Tracks at h
  generalize x S.machine = p at h hsize ⊢
  generalize y S.world = q at h ⊢
  cases h with
  | @ok T r _ hT hsince harrives =>
    obtain ⟨i, rfl, hslots, hi⟩ := harrives
    exact Or.inl (.value ⟨ground, hslots ▸ hT⟩ hi)
  | @error T m stop hT hsince hm =>
    rw [hS.length] at hsize
    rw [Machine.release_eq_self hsize] at hm
    have hlength : T.slots.length ≤ S.slots.length := by
      rw [← hT.length, hm]
      exact hsize
    have hslots : T.slots = S.slots := by
      have := hsince.slots
      rwa [List.take_length, List.take_of_length_le hlength] at this
    have hscene : (⟨m, T.world, S.slots, T.pos⟩ : Scene) = T := by
      rw [← hslots]
      exact congrArg (fun m => Scene.mk m T.world T.slots T.pos) hm.symm
    exact Or.inl (.stop ⟨ground, hscene ▸ hT⟩)
  | exhausted hfault => exact Or.inr ⟨_, _, rfl, hfault⟩

/-- An evaluation keeps its pace. -/
theorem Scene.Faithful.evaluate {i j r e : Nat} (hS : S.Faithful ground) (hi : S.pos i r)
    (hj : S.pos j e) (hk : S.machine.heap.memory.kind e = .environment) (fuel : Nat) :
    Reflected S.slots (ArenaScheme.evaluate (interpreter fuel) r e S.machine)
        ((pace (fuel + 1)).evaluate i j S.world) ∨
      Exhausted (ArenaScheme.evaluate (interpreter fuel) r e S.machine) := by
  exact Tracks.reflected hS (Machine.Shallow.call fuel (.evaluate r e))
    (Tracks.evaluate (interpreter_mimics ground fuel) hS hi hj ((hS.toDepicts.kind hj).trans hk))

end

namespace Machine.Reflects

variable {m : Machine} {W : World} {slots : List Nat} {link : Nat → Nat → Prop} {form env r e : Nat}

/-- With enough fuel the evaluator comes to what the definitional interpreter comes to. -/
theorem evaluate_of_bigStep {answer : EStateM.Result Stop World Nat} (hm : m.Reflects W slots link)
    (hform : link form r) (henv : link env e) (hk : m.heap.memory.kind e = .environment)
    (h : BigStep form env W answer) : ∃ enough, ∀ fuel, enough ≤ fuel →
      Reflected slots (evaluate (interpreter fuel) r e m) answer ∨
        Exhausted (evaluate (interpreter fuel) r e m) := by
  obtain ⟨ground, hS⟩ := hm
  obtain ⟨enough, henough⟩ := h.exists_pace
  refine ⟨enough, fun fuel hfuel => ?_⟩
  have hrun := hS.evaluate hform henv hk fuel
  rwa [henough (fuel + 1) (Nat.le_succ_of_le hfuel)] at hrun

/-- What the evaluator comes to the definitional interpreter comes to. -/
theorem bigStep_of_evaluate (hm : m.Reflects W slots link) (hform : link form r)
    (henv : link env e) (hk : m.heap.memory.kind e = .environment) (fuel : Nat) :
    (∃ answer, BigStep form env W answer ∧
      Reflected slots (evaluate (interpreter fuel) r e m) answer) ∨
    Exhausted (evaluate (interpreter fuel) r e m) ∨
    ∃ m', evaluate (interpreter fuel) r e m = .error .outOfFuel m' := by
  obtain ⟨ground, hS⟩ := hm
  rcases hS.evaluate hform henv hk fuel with hreflected | hexhausted
  · by_cases hout : ∃ m', evaluate (interpreter fuel) r e m = .error .outOfFuel m'
    · exact Or.inr (Or.inr hout)
    · refine Or.inl ⟨_, .of_pace rfl fun W' heq => hout ?_, hreflected⟩
      simp only at hreflected
      rw [heq] at hreflected
      generalize evaluate (interpreter fuel) r e m = p at hreflected ⊢
      cases hreflected with
      | stop _ => exact ⟨_, rfl⟩
  · exact Or.inr (Or.inl hexhausted)

end Machine.Reflects

/-! A call that asks for more than a heap can hold. -/

/-- A form that calls `make-string`: the procedure itself, and the length. -/
def callItems (n length : Nat) : List Item :=
  [.builtin Store.null 35, .integer length, .pair (n + 1) Store.null, .pair n (n + 2)]

/-- The definitional interpreter makes a string of that length, however long. -/
theorem bigStep_callItems {W : World} {items : List Item} {length : Nat}
    (hitems : W.store.items = items ++ callItems items.length length)
    (hnull : W.store.object Store.null = .null)
    (hspecial : W.keywords.specialForm? items.length = none) (hlength : length ≤ 4294967295)
    (env : Nat) :
    BigStep (items.length + 3) env W (.ok (items.length + 4) { W with
      store := (W.store.make (.string (List.replicate length ' '))).2 }) := by
  have hitem : ∀ {k item}, (callItems items.length length)[k]? = some item →
      W.store.item (items.length + k) = item := fun {k item} hk => by
    unfold Store.item
    rw [hitems, List.getElem?_append_right (Nat.le_add_right _ _), Nat.add_sub_cancel_left, hk]
    rfl
  have hobject : ∀ {k item}, (callItems items.length length)[k]? = some item →
      W.store.object (items.length + k) = item.object := fun hk => congrArg Item.object (hitem hk)
  refine ⟨⟨4, ?_⟩, nofun⟩
  refine (Semantics.eval_eq_invoke (hobject (k := 3) rfl) hspecial (p := items.length)
    ?_ (Store.cdrOf_of_object (hobject (k := 3) rfl))
    (.cons (hobject (k := 2) rfl) (.nil hnull))
    (show List.Forall₂ _ _ [items.length + 1] from .cons ?_ .nil)
    (by simp [Semantics.recursion])).trans ?_
  · change Semantics.eval _ (items.length + 0) env W = _
    rw [Semantics.eval, Act.object_bind, hobject (k := 0) rfl]
    rfl
  · change Semantics.eval _ _ env W = _
    rw [Semantics.eval, Act.object_bind, hobject (k := 1) rfl]
    rfl
  · change Semantics.invoke _ (items.length + 0) _ W = _
    rw [Semantics.invoke, Act.object_bind, hobject (k := 0) rfl]
    have hask : W.store.integerOf (items.length + 1) = .ok (length : Int) := by
      unfold Store.integerOf Store.ask
      rw [hitem (k := 1) rfl]
      rfl
    have hnew : Meaning.newLength (items.length + 1) W = .ok length W := by
      refine (Act.bind_eq (Act.ask_eq hask)).trans ?_
      rw [if_pos (by omega)]
      rfl
    refine (Act.bind_eq hnew).trans ?_
    have hnext : W.store.items.length = items.length + 4 := by simp [hitems, callItems]
    exact congrArg (EStateM.Result.ok · _) hnext

/-- A machine in which such a form can be evaluated. -/
theorem exists_makeString_call {length : Nat} (hlength : length ≤ 4294967295) :
    ∃ m W slots link form r e i W', Machine.Confined 0 m ∧ m.Reflects W slots link ∧ link form r ∧
      link W.globals e ∧ m.heap.memory.kind e = .environment ∧
      BigStep form W.globals W (.ok i W') ∧
      W'.store.item i = .string (List.replicate length ' ') := by
  obtain ⟨ground, B, hB, -, hroom⟩ := exists_grown 0
  have hnull : ∀ {T : Scene} {items : List Item}, B.Grown ground 0 items T →
      T.pos Store.null Heap.null := fun hT => hT.faithful.null
  obtain ⟨T₁, hT₁⟩ := hB.push (.builtin Heap.null 35)
    (List.forall_mem_singleton.mpr ⟨_, hnull hB⟩) ⟨rfl, rfl, rfl⟩ rfl
    (hB.faithful.toPortrays.builtin (hnull hB) (by decide)) (hroom (by decide))
  obtain ⟨T₂, hT₂⟩ := hT₁.integer length (hroom (k := 1) (by decide))
  obtain ⟨T₃, hT₃⟩ := hT₂.pair (hT₂.pos (k := 1) (by simp)) (hnull hT₂) (hroom (k := 2) (by decide))
  obtain ⟨T, hT⟩ := hT₃.pair (hT₃.pos (k := 0) (by simp)) (hT₃.pos (k := 2) (by simp))
    (hroom (k := 3) (by decide))
  have hvalue : signedOfWord ((length : Int) % 18446744073709551616).toNat = length := by
    unfold signedOfWord
    rw [if_pos (by omega)]
    omega
  rw [hvalue] at hT
  have hitems : T.world.store.items =
      B.world.store.items ++ callItems B.world.store.items.length length :=
    congrArg (·.store.items) hT.world
  have hglobals := hT.faithful.stays hT.faithful.globals
  refine ⟨T.machine, T.world, T.slots, T.pos, _, _, _, _, _, hT.confined, ⟨ground, hT.faithful⟩,
    hT.pos (k := 3) (by simp), hglobals, ?_, bigStep_callItems hitems ?_ ?_ hlength T.world.globals, ?_⟩
  · rw [← hT.faithful.toDepicts.kind hglobals]
    exact hT.faithful.globals_kind
  · exact hT.faithful.object_null
  · rw [hT.world]
    exact hB.faithful.specialForm?_eq_none (Nat.le_refl _)
  · simp [Store.item, Store.make, hitems, callItems]

/-- There are strings in the world that no machine has. -/
theorem Machine.Reflects.sequenceSize_le {m : Machine} {W : World} {slots : List Nat}
    {link : Nat → Nat → Prop} {i r : Nat} {text : List Char} (h : m.Reflects W slots link)
    (hi : link i r) (htext : W.store.item i = .string text) : sequenceSize text.length ≤ maxSize := by
  obtain ⟨ground, hS⟩ := h
  have hk : m.heap.memory.kind r = .string := by
    have hkind := hS.toDepicts.kind hi
    rw [show W.store.item i = .string text from htext] at hkind
    exact hkind.symm
  have halike : (Object.string text.length).Alike link (.string (m.heap.memory.field r 0)) := by
    have halike := hS.toDepicts.object hi
    unfold Store.object Heap.object Heap.kind at halike
    rwa [show W.store.item i = .string text from htext, show m.heap.memory.kind r = .string from hk]
      at halike
  generalize hcount : m.heap.memory.field r 0 = count at halike
  cases halike with
  | string =>
    have hextent : m.heap.memory.extent r = sequenceSize text.length := by
      unfold extent
      simp only [hk, hcount]
    have hbound : r + m.heap.memory.extent r ≤ m.heap.top :=
      (hS.sound.wf.tiled.bounds (hS.mem hi)).2
    have hmax : m.heap.top ≤ maxSize := hS.sound.wf.top_le_max
    omega

/-- The evaluator refines the definitional interpreter, in every machine that a host without procedures
of its own can come to have. The frame of the transformers is the machine's own. If neither the slots nor
the global frame lead there, all records that do not lead there are things of a world; and as long as
nothing is expanded that makes a mess of that frame, all records are. For each form and each frame of a
world, whatever the definitional interpreter comes to, the evaluator comes to as soon as it has enough
fuel, unless there is no room left in its heap; and whatever the evaluator comes to, the definitional
interpreter comes to, unless there is no room left or the fuel is spent. -/
theorem evaluate_refines_bigStep {size : UInt32} {m : Machine} (hm : Machine.Reachable size m)
    (hhosts : m.hostProcedures = #[]) :
    ((∀ r, r ∈ m.heap.roots ∨ r = m.globals → ¬ m.heap.Leads m.transformers r) →
      ∃ W slots link, m.Reflects W slots link ∧
        ∀ r ∈ m.heap.records, ¬ m.heap.Leads m.transformers r → ∃ i, link i r) ∧
    (Machine.Confined size m →
      ∃ W slots link, m.Reflects W slots link ∧ ∀ r ∈ m.heap.records, ∃ i, link i r) ∧
    ∀ W slots link, m.Reflects W slots link → ∀ form env r e, link form r → link env e →
      m.heap.memory.kind e = .environment →
      (∀ answer, BigStep form env W answer → ∃ enough, ∀ fuel, enough ≤ fuel →
        Reflected slots (evaluate (interpreter fuel) r e m) answer ∨
          Exhausted (evaluate (interpreter fuel) r e m)) ∧
      ∀ fuel,
        (∃ answer, BigStep form env W answer ∧
          Reflected slots (evaluate (interpreter fuel) r e m) answer) ∨
        Exhausted (evaluate (interpreter fuel) r e m) ∨
        ∃ m', evaluate (interpreter fuel) r e m = .error .outOfFuel m' := by
  refine ⟨fun hapart => ⟨_, _, _, ⟨_, hm.faithful hhosts (fun r hr => hapart r (Or.inl hr))
    (hapart _ (Or.inr rfl))⟩, fun r hr hnot => ⟨_, numbered_number hr, hnot⟩⟩, fun hc => ⟨_, _, _,
    ⟨_, hc.faithful⟩, fun r hr => ⟨_, numbered_number hr, trivial⟩⟩, ?_⟩
  intro W slots link hreflects form env r e hform henv hk
  exact ⟨fun answer h => hreflects.evaluate_of_bigStep hform henv hk h,
    hreflects.bigStep_of_evaluate hform henv hk⟩

/-! The sequence of one number, which is in tail position: the loop goes round twice. -/

section

variable {k m : Machine} {calls : Calls} {form env head body x r slot rounds : Nat} {value : Int}

theorem evalSequence_last {fuel : Nat} (hfuel : fuel = rounds + 1)
    (h : k.heap.object (k.heap.root body) = .pair x Heap.null) :
    evalSequence calls body env fuel k = .ok (.tail x (k.heap.root env)) k := by
  subst hfuel
  refine (Eval.bind_run rfl).trans ((Eval.bind_run rfl).trans ?_)
  rw [h]
  refine (Eval.bind_run rfl).trans ?_
  rfl

theorem evalSpecial_begin (hrounds : calls.rounds = rounds + 1)
    (hcdr : k.heap.cdr (k.heap.root form) = .ok body)
    (hbody : k.heap.object body = .pair x Heap.null) :
    ∃ frame, evalSpecial calls .begin form env k =
      .ok (.tail x frame) { k with heap.roots := k.heap.roots.push body } := by
  have hroot : (k.heap.roots.push body)[k.heap.roots.size]?.getD Heap.null = body := by simp
  have hlast := @evalSequence_last { k with heap.roots := k.heap.roots.push body } calls env
    k.heap.roots.size x _ _ hrounds
    ((object_withRoots _ _ _).trans ((congrArg k.heap.object hroot).trans hbody))
  have hoperands : operandsOf form k = .ok body k :=
    (Eval.bind_run rfl).trans (Eval.query_run _ hcdr)
  exact ⟨_, (Eval.bind_run hoperands).trans ((Eval.bind_run rfl).trans hlast)⟩

theorem evalTurn_begin (hrounds : calls.rounds = rounds + 1)
    (h : k.heap.object (k.heap.root form) = .pair head body)
    (hspecial : k.keywords.specialForm? head = some .begin)
    (hcdr : k.heap.cdr (k.heap.root form) = .ok body)
    (hbody : k.heap.object body = .pair x Heap.null) :
    ∃ frame, evalTurn calls form env k =
      .ok (.tail x frame) { k with heap.roots := k.heap.roots.push body } := by
  obtain ⟨frame, hrun⟩ := evalSpecial_begin hrounds hcdr hbody
  refine ⟨frame, (Eval.bind_run rfl).trans ((Eval.bind_run rfl).trans ?_)⟩
  rw [h]
  refine (Eval.bind_run rfl).trans ?_
  rw [hspecial]
  exact hrun

theorem evalTurn_integer (h : k.heap.object (k.heap.root form) = .integer value) :
    evalTurn calls form env k = .ok (.done (k.heap.root form)) k := by
  refine (Eval.bind_run rfl).trans ((Eval.bind_run rfl).trans ?_)
  rw [h]
  rfl

theorem root_shrunk {roots : Array Ref} (hroot : roots[slot]? = some x) :
    ({ m.heap with roots := roots.shrink (slot + 1 + 1) } : Heap).root slot = x := by
  rw [Heap.root, Corr.getElem?_shrink, if_pos (by omega), hroot]
  rfl

theorem evalLoop_integer {roots : Array Ref} (hroot : roots[slot]? = some x)
    (hx : m.heap.object x = .integer value) :
    ∃ m', evalLoop calls slot (slot + 1) (rounds + 1) { m with heap.roots := roots } = .ok x m' := by
  have hroot' := root_shrunk (m := m) hroot
  have hturn := @evalTurn_integer { m with heap.roots := roots.shrink (slot + 1 + 1) } calls slot
    (slot + 1) value ((object_withRoots _ _ _).trans ((congrArg m.heap.object hroot').trans hx))
  have hloop : evalLoop calls slot (slot + 1) (rounds + 1) { m with heap.roots := roots } =
      (evalTurn calls slot (slot + 1) >>= Machine.afterTurn calls slot (slot + 1) rounds)
        { m with heap.roots := roots.shrink (slot + 1 + 1) } := rfl
  rw [hloop, Eval.bind_run hturn]
  exact ⟨_, congrArg (EStateM.Result.ok · _) hroot'⟩

/-- A form that is a sequence of one number. -/
structure Machine.Sequence (m : Machine) (head body x r : Nat) (value : Int) : Prop where
  form : m.heap.object r = .pair head body
  special : m.keywords.specialForm? head = some .begin
  body : m.heap.object body = .pair x Heap.null
  number : m.heap.object x = .integer value

theorem evalLoop_begin {roots : Array Ref} (hrounds : calls.rounds = rounds + 2)
    (hroot : roots[slot]? = some r) (h : m.Sequence head body x r value) :
    ∃ m', evalLoop calls slot (slot + 1) calls.rounds { m with heap.roots := roots } = .ok x m' := by
  have hroot' := root_shrunk (m := m) hroot
  obtain ⟨frame, hturn⟩ : ∃ frame, evalTurn calls slot (slot + 1)
      { m with heap.roots := roots.shrink (slot + 1 + 1) } = .ok (.tail x frame) _ :=
    evalTurn_begin hrounds
      ((object_withRoots _ _ _).trans ((congrArg m.heap.object hroot').trans h.form)) h.special
      ((congrArg m.heap.cdr hroot').trans (cdr_of_pair h.form)) ((object_withRoots _ _ _).trans h.body)
  -- the number takes the place of the form
  have hset : (((((roots.shrink (slot + 1 + 1)).push body).setIfInBounds slot x).setIfInBounds
      (slot + 1) frame))[slot]? = some x := by
    have hlt := (Array.getElem?_eq_some_iff.mp hroot).1
    rw [Array.getElem?_setIfInBounds_ne (by omega), Array.getElem?_setIfInBounds_self_of_lt]
    simp
    omega
  obtain ⟨m', hlast⟩ := @evalLoop_integer m calls x slot rounds value _ hset h.number
  rw [hrounds]
  exact ⟨m', (Eval.bind_run rfl).trans ((Eval.bind_run hturn).trans ((Eval.bind_run rfl).trans
    ((Eval.bind_run rfl).trans hlast)))⟩

theorem Machine.Sequence.evaluate (h : m.Sequence head body x r value) (fuel e : Nat) :
    ∃ m', ArenaScheme.evaluate (interpreter (fuel + 3)) r e m = .ok x m' := by
  have hroot : ((m.heap.roots.push r).push e)[m.heap.roots.size]? = some r := by
    simp [Array.getElem_push]
  obtain ⟨m', hloop⟩ := @evalLoop_begin m (interpreter (fuel + 3)) head body x r m.heap.roots.size
    fuel value _ rfl hroot h
  rw [Machine.evaluate_eq_evalLoop]
  exact ⟨_, Eval.keepingRoots_run hloop⟩

end

theorem BigStep.sequence {W : World} {form head body i : Nat} {value : Int}
    (hform : W.store.object form = .pair head body)
    (hspecial : W.keywords.specialForm? head = some .begin)
    (hbody : W.store.object body = .pair i Store.null)
    (hi : W.store.object i = .integer value) (env : Nat) : BigStep form env W (.ok i W) := by
  refine ⟨⟨4, ?_⟩, nofun⟩
  change Semantics.eval _ form env W = _
  rw [Semantics.eval, Act.object_bind, hform]
  refine (Act.bind_eq rfl).trans ?_
  rw [hspecial]
  refine (Act.bind_eq (Act.ask_eq (Store.cdrOf_of_object hform))).trans ?_
  change Semantics.evalSequence _ env 2 body W = _
  rw [Semantics.evalSequence, Act.object_bind, hbody]
  change Semantics.eval _ i env W = _
  rw [Semantics.eval, Act.object_bind, hi]
  rfl

/-- A machine in which the sequence of a seven can be evaluated. -/
theorem exists_sequence :
    ∃ m W slots link form r e i, Machine.Confined 0 m ∧ m.Reflects W slots link ∧ link form r ∧
      link W.globals e ∧ m.heap.memory.kind e = .environment ∧ BigStep form W.globals W (.ok i W) ∧
      W.store.item i = .integer 7 ∧
      ∀ fuel, 3 ≤ fuel → ∃ x m', evaluate (interpreter fuel) r e m = .ok x m' := by
  obtain ⟨ground, B, hB, -, hroom⟩ := exists_grown 0
  obtain ⟨T₁, hT₁⟩ := hB.integer 7 (hroom (by decide))
  obtain ⟨T₂, hT₂⟩ := hT₁.pair (hT₁.pos (k := 0) (by simp)) hT₁.faithful.null
    (hroom (k := 1) (by decide))
  obtain ⟨T, hT⟩ := hT₂.pair (hT₂.faithful.stays hT₂.faithful.keywords.begin)
    (hT₂.pos (k := 1) (by simp)) (hroom (k := 2) (by decide))
  have hS := hT.faithful
  have hr := hT.confined.reachable
  have hsymbol := hr.intact.symbolName_named (p := (T.machine.keywords.begin, "begin"))
    (by simp [Keywords.named])
  have hspecial : T.machine.keywords.specialForm? T.machine.keywords.begin = some .begin :=
    hr.specialForm_iff.mpr ⟨hsymbol.1.1, hsymbol.2⟩
  have hbegin := hS.stays hS.keywords.begin
  have hspecial' : T.world.keywords.specialForm? T.world.keywords.begin = some .begin :=
    (hS.keywords.specialForm? fun hj => hS.toDepicts.eq_iff hbegin (hS.stays hj)).trans hspecial
  have hkeywords : T₂.world.keywords = T.world.keywords := by rw [hT₂.world, hT.world]
  have hobject : ∀ {k item}, T.world.store.item (B.world.store.items.length + k) = item →
      T.world.store.object (B.world.store.items.length + k) = item.object := congrArg Item.object
  have hform := hT.pos (k := 2) (by simp)
  have hbody := hT.pos (k := 1) (by simp)
  have hseven := hT.pos (k := 0) (by simp)
  have hformW := hobject (hT.item (k := 2) rfl)
  have hbodyW := hobject (hT.item (k := 1) rfl)
  have hsevenW := hobject (hT.item (k := 0) rfl)
  rw [hkeywords] at hformW
  have hglobals := hS.stays hS.globals
  refine ⟨T.machine, T.world, T.slots, T.pos, _, _, _, _, hT.confined, ⟨ground, hS⟩, hform, hglobals,
    ?_, .sequence hformW hspecial' hbodyW hsevenW _, hT.item (k := 0) rfl, fun fuel hfuel => ?_⟩
  · rw [← hS.toDepicts.kind hglobals]
    exact hS.globals_kind
  · obtain ⟨fuel, rfl⟩ := Nat.exists_eq_add_of_le' hfuel
    have hsequence : T.machine.Sequence _ _ _ _ 7 :=
      ⟨hS.toDepicts.object_pair hformW hform hbegin hbody, hspecial,
        hS.toDepicts.object_pair hbodyW hbody hseven hS.null, hS.toDepicts.object_integer hsevenW hseven⟩
    exact ⟨_, hsequence.evaluate fuel _⟩

/-- The sequence of the number seven: with enough fuel the evaluator has a value, and it is the seven. -/
theorem evaluate_refines_bigStep_tail :
    ∃ m W slots link form r e i, Machine.Reachable 0 m ∧ m.hostProcedures = #[] ∧
      m.Reflects W slots link ∧ link form r ∧ link W.globals e ∧
      m.heap.memory.kind e = .environment ∧ BigStep form W.globals W (.ok i W) ∧
      W.store.item i = .integer 7 ∧
      ∃ enough, ∀ fuel, enough ≤ fuel →
        Reflected slots (evaluate (interpreter fuel) r e m) (.ok i W) := by
  obtain ⟨m, W, slots, link, form, r, e, i, hm, hreflects, hform, henv, hk, hstep, hitem, hruns⟩ :=
    exists_sequence
  obtain ⟨enough, henough⟩ := ((evaluate_refines_bigStep hm.reachable hm.strict.closed).2.2 W slots
    link hreflects form W.globals r e hform henv hk).1 _ hstep
  refine ⟨m, W, slots, link, form, r, e, i, hm.reachable, hm.strict.closed, hreflects, hform, henv, hk,
    hstep, hitem, enough + 3, fun fuel hfuel => ?_⟩
  refine (henough fuel (by omega)).resolve_right ?_
  rintro ⟨fault, k, hfault, -⟩
  obtain ⟨x, k', hrun⟩ := hruns fuel (by omega)
  cases hrun.symm.trans hfault

/-- The definitional interpreter makes a string that no heap has room for. However much fuel it has,
the evaluator comes to no value. -/
theorem bigStep_without_room :
    ∃ m W slots link form r e i W', Machine.Confined 0 m ∧ m.Reflects W slots link ∧
      link form r ∧ link W.globals e ∧ m.heap.memory.kind e = .environment ∧
      BigStep form W.globals W (.ok i W') ∧
      ∀ fuel value m', evaluate (interpreter fuel) r e m ≠ .ok value m' := by
  obtain ⟨m, W, slots, link, form, r, e, i, W', hm, hreflects, hform, henv, hk, hstep, hitem⟩ :=
    exists_makeString_call (Nat.le_refl 4294967295)
  refine ⟨m, W, slots, link, form, r, e, i, W', hm, hreflects, hform, henv, hk, hstep,
    fun fuel value m' hvalue => ?_⟩
  rcases hreflects.bigStep_of_evaluate hform henv hk fuel with
    ⟨answer, hanswer, hreflected⟩ | ⟨_, _, hfault, -⟩ | ⟨_, hout⟩
  · obtain rfl := hanswer.unique hstep
    rw [hvalue] at hreflected
    cases hreflected with
    | value hm' hi =>
      have hsize := hm'.sequenceSize_le hi hitem
      rw [List.length_replicate] at hsize
      exact absurd hsize (by decide)
  · cases hvalue.symm.trans hfault
  · cases hvalue.symm.trans hout

end ArenaScheme
