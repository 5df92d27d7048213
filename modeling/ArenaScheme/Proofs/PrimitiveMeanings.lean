import ArenaScheme.Proofs.SceneSteps

/-! The primitive procedures of a machine do what they mean for its world. -/

namespace ArenaScheme

open Memory Heap

variable {α β : Type} {x : Eval α} {count n : Nat} {S : Scene}

/-- The number that a program sees, if it sees one. -/
def Object.number? : Object → Option Number
  | .integer value => some (.integer value)
  | .float bits => some (.float bits)
  | _ => none

def Object.parts? : Object → Option (Ref × Ref)
  | .tagged marker value => some (marker, value)
  | _ => none

/-- What is wanted of a record, if it is of the right sort. -/
def Heap.see {α : Type} (h : Heap) (expected : String) (view : Object → Option α) (r : Ref) :
    Except Fault α :=
  match view (h.object r) with
  | some a => .ok a
  | none => .error (.wrongType expected (h.typeName r))

/-- What is left to do after a step of the machine. The world has the value by then, or it goes on with
a form in tail position. -/
inductive Proceeds (finish : (form env : Nat) → Act Nat) (T : Scene) :
    Step → EStateM.Result Stop World Nat → Prop
  | done {r i : Nat} : T.pos i r → Proceeds finish T (.done r) (.ok i T.world)
  | tail {r e i j : Nat} : T.pos i r → T.pos j e → (T.world.store.item j).kind = .environment →
    Proceeds finish T (.tail r e) (finish i j T.world)

/-- The parts of an interpreter are like those of the definitional one. -/
structure Calls.Follows (ground : Ground) (calls : Calls) (rec : Recursion) : Prop where
  rounds : calls.rounds = rec.rounds
  evaluate : ∀ {n S r e i j}, S.Faithful ground → n ≤ S.slots.length → S.pos i r → S.pos j e →
    (S.world.store.item j).kind = .environment →
    Mirrors ground n S (Gives S.slots) (calls.evaluate r e) (rec.evaluate i j)
  call : ∀ {n S operator args p}, S.Faithful ground → n ≤ S.slots.length →
    S.slots[operator]? = some p → args ≤ S.slots.length →
    Tracks ground n S (Proceeds rec.tail) (calls.invoke operator args)
      (rec.call p (S.slots.drop args))

/-- So are the procedures that have an index. -/
structure Calls.Mimics (ground : Ground) (calls : Calls) (rec : Recursion) : Prop
    extends calls.Follows ground rec where
  builtin : ∀ {n S index args args'}, S.Faithful ground → n ≤ S.slots.length →
    List.Forall₂ S.pos args args' →
    Tracks ground n S (Proceeds rec.tail) (calls.builtin index args')
      (Semantics.runBuiltin rec index args)

/-- A primitive procedure does what it means. -/
structure Primitive.Means (ground : Ground) (p : Primitive) (q : Meaning) : Prop where
  arity : p.arity = q.arity
  run : ∀ {calls rec n S args args'}, calls.Follows ground rec → S.Faithful ground →
    n ≤ S.slots.length → List.Forall₂ S.pos args args' →
    Tracks ground n S (Proceeds rec.tail) (p.run calls args') (q.run rec args)

/-- A value on the side of the machine stands for one of the world. -/
theorem Tracks.done {ground : Ground} {slots : List Nat}
    {finish : (form env : Nat) → Act Nat} {x : Eval Ref} {y : Act Nat}
    (h : Mirrors ground n S (Gives slots) x y) :
    Tracks ground n S (Proceeds finish) (x >>= fun v => pure (.done v)) y := by
  rw [← bind_pure y]
  exact h.bind (Nat.le_refl n) fun T r i hT hsince hgives => .ok hT (.refl hsince.size)
    (.done hgives.2)

namespace Primitive

variable {ground : Ground} {name : String}

theorem tracks_wrongCount {arity count' : Nat} {finish : (form env : Nat) → Act Nat}
    (hS : S.Faithful ground) (hn : n ≤ S.slots.length) (hcount : count = count') :
    Tracks ground n S (Proceeds finish) (Eval.fail (.wrongArgumentCount arity count'))
      (Act.fail (.wrongArgumentCount arity count)) :=
  hcount ▸ .fail hS hn

theorem means_nullary {f : Eval Ref} {g : Act Nat}
    (h : ∀ {n S}, S.Faithful ground → n ≤ S.slots.length →
      Mirrors ground n S (Gives S.slots) f g) :
    (nullary name f).Means ground (.nullary g) where
  arity := rfl
  run _ hS hn hargs := by
    cases hargs with
    | nil => exact (h hS hn).done
    | cons _ hargs =>
      exact tracks_wrongCount hS hn (by simp [hargs.length_eq])

theorem means_unary {f : Ref → Eval Ref} {g : Nat → Act Nat}
    (h : ∀ {n S i r}, S.Faithful ground → n ≤ S.slots.length → S.pos i r →
      Mirrors ground n S (Gives S.slots) (f r) (g i)) :
    (unary name f).Means ground (.unary g) where
  arity := rfl
  run _ hS hn hargs := by
    match hargs with
    | .cons ha .nil => exact (h hS hn ha).done
    | .nil => exact .fail hS hn
    | .cons _ (.cons _ hargs) =>
      exact tracks_wrongCount hS hn (by simp [hargs.length_eq])

theorem means_binary {f : Ref → Ref → Eval Ref} {g : Nat → Nat → Act Nat}
    (h : ∀ {n S i r j t}, S.Faithful ground → n ≤ S.slots.length → S.pos i r → S.pos j t →
      Mirrors ground n S (Gives S.slots) (f r t) (g i j)) :
    (binary name f).Means ground (.binary g) where
  arity := rfl
  run _ hS hn hargs := by
    match hargs with
    | .cons ha (.cons hb .nil) => exact (h hS hn ha hb).done
    | .nil => exact .fail hS hn
    | .cons _ .nil => exact .fail hS hn
    | .cons _ (.cons _ (.cons _ hargs)) =>
      exact tracks_wrongCount hS hn (by simp [hargs.length_eq])

theorem means_ternary {f : Ref → Ref → Ref → Eval Ref} {g : Nat → Nat → Nat → Act Nat}
    (h : ∀ {n S i r j t k u}, S.Faithful ground → n ≤ S.slots.length → S.pos i r → S.pos j t →
      S.pos k u → Mirrors ground n S (Gives S.slots) (f r t u) (g i j k)) :
    (ternary name f).Means ground (.ternary g) where
  arity := rfl
  run _ hS hn hargs := by
    match hargs with
    | .cons ha (.cons hb (.cons hc .nil)) => exact (h hS hn ha hb hc).done
    | .nil => exact .fail hS hn
    | .cons _ .nil => exact .fail hS hn
    | .cons _ (.cons _ .nil) => exact .fail hS hn
    | .cons _ (.cons _ (.cons _ (.cons _ hargs))) =>
      exact tracks_wrongCount hS hn (by simp [hargs.length_eq])

/-! Numbers. -/

section

variable {n : Nat} {S : Scene} {i r j t : Nat}

/-- A question about one record, whose answer is the same for the world. -/
abbrev Asks {α : Type} (ground : Ground) (n : Nat) (S : Scene) (x : Eval α)
    (y : Act α) : Prop :=
  Mirrors ground n S (fun T a b => T = S ∧ b = a) x y

theorem asks_bind {γ : Type} {y : Act α} {f : α → Eval β} {g : α → Act γ}
    {last : Scene → β → EStateM.Result Stop World γ → Prop} (h : Asks ground n S x y)
    (hnext : ∀ a, Tracks ground n S last (f a) (g a)) :
    Tracks ground n S last (x >>= f) (y >>= g) :=
  h.bind (Nat.le_refl n) fun _ a _ _ _ ⟨hT, hab⟩ => hT ▸ hab ▸ hnext a

theorem asks_query {question : Heap → Except Fault α} {question' : Store → Except Fault α}
    (hS : S.Faithful ground) (hn : n ≤ S.slots.length)
    (h : Answers Eq (question' S.world.store) (question S.machine.heap)) :
    Asks ground n S (Eval.onHeap (HeapM.query question)) (Act.ask question') :=
  .query hS hn h

/-- What is seen of a record, with a complaint if it is of the wrong sort. -/
theorem answers_object {post : α → β → Prop} {expected : String} {view : Item → Option α}
    {see : Object → Option β} (hS : S.Faithful ground) (hi : S.pos i r)
    (hsee : ∀ item o, item.object.Alike S.pos o → Option.Rel post (view item) (see o)) :
    Answers post (S.world.store.ask expected view i) (S.machine.heap.see expected see r) := by
  have hrel := hsee (S.world.store.item i) _ (hS.toDepicts.object hi)
  unfold Store.ask Heap.see
  rw [hS.toDepicts.typeName hi]
  generalize view (S.world.store.item i) = a at hrel ⊢
  generalize see (S.machine.heap.object r) = b at hrel ⊢
  cases hrel with
  | some hpost => exact .ok hpost
  | none => exact .error _ rfl

theorem number_eq (r : Ref) :
    number r = Eval.onHeap (HeapM.query (·.see "number" Object.number? r)) := by
  funext m
  have hobject : Eval.object r m = .ok (m.heap.object r) m := rfl
  unfold number
  change EStateM.bind (Eval.object r) _ m = _
  simp only [EStateM.bind, hobject, Eval.onHeap, HeapM.query, Heap.see]
  cases m.heap.object r <;> rfl

theorem tagParts_eq (r : Ref) :
    tagParts r = Eval.onHeap (HeapM.query (·.see "tag" Object.parts? r)) := by
  funext m
  have hobject : Eval.object r m = .ok (m.heap.object r) m := rfl
  unfold tagParts
  change EStateM.bind (Eval.object r) _ m = _
  simp only [EStateM.bind, hobject, Eval.onHeap, HeapM.query, Heap.see]
  cases m.heap.object r <;> rfl

section

variable (hS : S.Faithful ground) (hn : n ≤ S.slots.length)
include hS hn

theorem asks_number (hi : S.pos i r) :
    Asks ground n S (number r) (Act.ask (·.numberOf i)) := by
  rw [number_eq]
  refine asks_query hS hn (answers_object hS hi fun item o halike => ?_)
  cases item with
  | singleton kind => cases kind <;> cases halike <;> exact .none
  | _ =>
    cases halike
    constructor <;> rfl

/-- The parts of a tagged value. -/
theorem mirrors_tagParts (hi : S.pos i r) :
    Mirrors ground n S (fun T p q => T = S ∧ S.pos q.1 p.1 ∧ S.pos q.2 p.2) (tagParts r)
      (Act.ask (·.partsOf i)) := by
  rw [tagParts_eq]
  refine .query hS hn (answers_object hS hi fun item o halike => ?_)
  cases item with
  | singleton kind => cases kind <;> cases halike <;> exact .none
  | tagged marker value =>
    cases halike with
    | tagged hmarker hvalue => exact .some ⟨hmarker, hvalue⟩
  | _ =>
    cases halike
    exact .none

theorem mirrors_store (value : Number) :
    Mirrors ground n S (Gives S.slots) (store value) (Meaning.number value) := by
  cases value with
  | integer value => exact .integer hS hn value
  | float bits => exact .float hS hn bits

theorem asks_divisionOperands (hi : S.pos i r) (hj : S.pos j t) :
    Asks ground n S (divisionOperands r t) (Meaning.divisionOperands i j) :=
  asks_bind (asks_query hS hn (hS.toDepicts.integerOf hi)) fun _ =>
    asks_bind (asks_query hS hn (hS.toDepicts.integerOf hj)) fun _ =>
      .ite (fun _ => .fail hS hn) fun _ => .pure hS hn ⟨rfl, rfl⟩

theorem asks_base (hi : S.pos i r) :
    Asks ground n S (base r) (Meaning.base i) :=
  asks_bind (asks_query hS hn (hS.toDepicts.integerOf hi)) fun _ =>
    .ite (fun _ => .pure hS hn ⟨rfl, rfl⟩) fun _ => .fail hS hn

theorem asks_newLength (hi : S.pos i r) :
    Asks ground n S (newLength r) (Meaning.newLength i) :=
  asks_bind (asks_query hS hn (hS.toDepicts.integerOf hi)) fun _ =>
    .ite (fun _ => .pure hS hn ⟨rfl, rfl⟩) fun _ => .fail hS hn

theorem mirrors_integerToChar (hi : S.pos i r) :
    Mirrors ground n S (Gives S.slots) (integerToChar r) (Meaning.integerToChar i) :=
  asks_bind (asks_query hS hn (hS.toDepicts.integerOf hi)) fun _ =>
    .ite (fun _ => .character hS hn _) fun _ => .fail hS hn

/-- Text is added to what was displayed. -/
theorem mirrors_emit (text : String) :
    Mirrors ground n S (fun T _ _ => T.slots = S.slots) (emit text) (Act.emit text) :=
  .ok (T := ⟨{ S.machine with output := S.machine.output ++ text },
      { S.world with output := S.world.output ++ text }, S.slots, S.pos⟩)
    ⟨hS.toPortrays, hS.keywords, hS.globals, hS.truth, hS.falsity, hS.eof, hS.globals_kind, hS.hosts,
      congrArg (· ++ text) hS.output⟩
    ⟨hn, rfl, .refl _⟩ ⟨(), rfl, rfl⟩

end

/-- The effect of an operation, and then the value of a form that has none. -/
theorem mirrors_effect {y : Act β} (hn : n ≤ S.slots.length)
    (h : Mirrors ground n S (fun T _ _ => T.slots = S.slots) x y) :
    Mirrors ground n S (Gives S.slots) (x >>= fun _ => Eval.undefined)
      (y >>= fun _ => Act.undefined) :=
  h.bind (Nat.le_refl n) fun _ _ _ hT _ hslots =>
    (Tracks.undefined hT (hslots ▸ hn)).mono (Nat.le_refl n)
      fun _ _ _ _ _ ⟨b, hq, hgives⟩ => ⟨b, hq, hgives.1.trans hslots, hgives.2⟩

end

theorem mirrors_eq {i r j t : Nat} (hS : S.Faithful ground) (hn : n ≤ S.slots.length)
    (hi : S.pos i r) (hj : S.pos j t) :
    Mirrors ground n S (Gives S.slots) (pure (Heap.boolean (r == t)))
      (pure (Store.boolean (i == j))) := by
  have heq : (r == t) = (i == j) := by
    rw [Bool.eq_iff_iff, beq_iff_eq, beq_iff_eq, hS.toDepicts.eq_iff hi hj]
  rw [heq]
  exact .pure hS hn ⟨rfl, hS.pos_boolean _⟩

theorem means_predicate {holds : Object → Bool}
    (h : ∀ {link : Nat → Nat → Prop} {o o' : Object}, o.Alike link o' → holds o' = holds o) :
    (predicate name holds).Means ground (.predicate holds) :=
  means_unary fun hS hn hi => Tracks.object_bind hS hi fun o o' _ _ halike => by
    rw [h halike]
    exact .pure hS hn ⟨rfl, hS.pos_boolean _⟩

theorem means_arithmetic {exact : Int → Int → Int} {inexact : Float → Float → Float} :
    (arithmetic name exact inexact).Means ground (.arithmetic exact inexact) :=
  means_binary fun hS hn hi hj =>
    asks_bind (asks_number hS hn hi) fun _ => asks_bind (asks_number hS hn hj) fun _ =>
      mirrors_store hS hn _

theorem means_divide : divide.Means ground .divide :=
  means_binary fun hS hn hi hj =>
    asks_bind (asks_number hS hn hi) fun _ => asks_bind (asks_number hS hn hj) fun _ =>
      .ite (fun _ => .fail hS hn) fun _ => mirrors_store hS hn _

theorem means_quotient : quotient.Means ground .quotient :=
  means_binary fun hS hn hi hj =>
    asks_bind (asks_divisionOperands hS hn hi hj) fun _ => mirrors_store hS hn _

theorem means_remainder : remainder.Means ground .remainder :=
  means_binary fun hS hn hi hj =>
    asks_bind (asks_divisionOperands hS hn hi hj) fun _ => mirrors_store hS hn _

theorem means_comparison {holds : Ordering → Bool} :
    (comparison name holds).Means ground (.comparison holds) :=
  means_binary fun hS hn hi hj =>
    asks_bind (asks_number hS hn hi) fun _ => asks_bind (asks_number hS hn hj) fun _ =>
      .pure hS hn ⟨rfl, hS.pos_boolean _⟩

theorem means_exactToInexact : exactToInexact.Means ground .exactToInexact :=
  means_unary fun hS hn hi => asks_bind (asks_number hS hn hi) fun value => by
    cases value with
    | integer value => exact mirrors_store hS hn _
    | float bits => exact mirrors_store hS hn _

theorem means_inexactToExact : inexactToExact.Means ground .inexactToExact :=
  means_unary fun hS hn hi => asks_bind (asks_number hS hn hi) fun value => by
    cases value with
    | integer value => exact .pure hS hn ⟨rfl, hi⟩
    | float bits =>
      simp only
      cases Binary64.truncate bits with
      | some value => exact mirrors_store hS hn _
      | none => exact .fail hS hn

theorem means_stringToNumber : stringToNumber.Means ground .stringToNumber :=
  means_binary fun hS hn hi hj =>
    Tracks.query_bind hS hn (hS.toDepicts.stringValue hi) fun value text hvalue =>
      asks_bind (asks_base hS hn hj) fun b => by
        rw [hvalue, String.toList_ofList]
        cases (if b = 10 then Number.parse? text else (Number.integerIn? b text).map .integer) with
        | some value => exact mirrors_store hS hn value
        | none => exact .pure hS hn ⟨rfl, hS.pos_boolean false⟩

theorem means_numberToString : numberToString.Means ground .numberToString :=
  means_binary fun hS hn hi hj =>
    asks_bind (asks_number hS hn hi) fun value => asks_bind (asks_base hS hn hj) fun b => by
      cases value with
      | integer value => exact .string hS hn _
      | float bits => exact .ite (fun _ => .string hS hn _) fun _ => .fail hS hn

end Primitive

/-! The call that `apply` makes. -/

namespace Act

variable {α β : Type}

theorem ask_bind (first : Store → Except Fault α) (next : α → Store → Except Fault β) :
    ask (fun A => first A >>= fun a => next a A) = ask first >>= fun a => ask (next a) := by
  funext W
  change _ = EStateM.bind (ask first) _ W
  simp only [ask, EStateM.bind]
  cases first W.store <;> rfl

end Act

namespace Tracks

variable {ground : Ground} {n : Nat} {S : Scene} {i r p t : Nat} {γ δ : Type}
  {last : Scene → γ → EStateM.Result Stop World δ → Prop}

/-- The elements of a list are pushed one after the other. -/
theorem pushElements_bind {f : Unit → Eval γ} {g : List Nat → Act δ} (hS : S.Faithful ground)
    (hn : n ≤ S.slots.length) (hi : S.pos i r)
    (h : ∀ T xs, T.Faithful ground → T.slots = S.slots ++ xs → T.world = S.world →
      Tracks ground n T last (f ()) (g xs)) :
    Tracks ground n S last (pushElements count r >>= f)
      (Act.ask (·.firstElements count i) >>= g) := by
  induction count generalizing S i r g with
  | zero => exact h S [] hS (List.append_nil _).symm rfl
  | succ count ih =>
    have hask : Act.ask (·.firstElements (count + 1) i) = (do
        let x ← Act.ask (·.carOf i)
        let rest ← Act.ask (·.cdrOf i)
        let xs ← Act.ask (·.firstElements count rest)
        return x :: xs) := by
      simp only [Store.firstElements, Act.ask_bind]
      rfl
    rw [hask, pushElements]
    simp only [bind_assoc, pure_bind]
    refine query_bind hS hn (hS.toDepicts.carOf hi) fun car x hx => ?_
    refine pushRoot_bind hS hn (i := x) ?_
    have hpushed := hS.push hx
    have hlength : n ≤ (S.push x car).slots.length :=
      Nat.le_trans hn (List.length_append ▸ Nat.le_add_right _ _)
    refine query_bind hpushed hlength (hpushed.toDepicts.cdrOf hi) fun cdr rest hrest => ?_
    refine ih hpushed hlength hrest fun T xs hT hslots hworld => ?_
    exact h T (x :: xs) hT (by simp [hslots, Scene.push]) hworld

theorem applyStep {calls : Calls} {rec : Recursion} (hcalls : calls.Follows ground rec)
    (hS : S.Faithful ground) (hn : n ≤ S.slots.length) (hp : S.pos p t) (hi : S.pos i r) :
    Tracks ground n S (Proceeds rec.tail) (ArenaScheme.applyStep calls t r)
      (Meaning.applyTo rec p i) := by
  refine query_bind hS hn (hS.toDepicts.listLength hi) fun length length' hlength => ?_
  obtain ⟨rfl, _⟩ := hlength
  refine pushRoot_bind hS hn (i := p) ?_
  have hpushed := hS.push hp
  have hslots : (S.push p t).slots.length = S.slots.length + 1 := by simp [Scene.push]
  refine rootCount_bind hpushed ?_
  refine pushElements_bind hpushed (hslots ▸ Nat.le_succ_of_le hn) hi fun T xs hT hT' _ => ?_
  have hargs : xs = T.slots.drop (S.push p t).slots.length := by rw [hT', List.drop_left]
  have hlength : (S.push p t).slots.length ≤ T.slots.length := by
    rw [hT', List.length_append]
    exact Nat.le_add_right _ _
  have hoperator : T.slots[S.slots.length]? = some p := by
    rw [hT', List.getElem?_append_left (by omega)]
    simp [Scene.push]
  rw [hargs]
  exact hcalls.call hT (by omega) hoperator hlength

end Tracks

namespace Primitive

variable {ground : Ground}

theorem means_applyList : applyList.Means ground .applyList where
  arity := rfl
  run hcalls hS hn hargs := by
    match hargs with
    | .cons hp (.cons hi .nil) => exact .applyStep hcalls hS hn hp hi
    | .nil => exact .fail hS hn
    | .cons _ .nil => exact .fail hS hn
    | .cons _ (.cons _ (.cons _ hargs)) =>
      exact tracks_wrongCount hS hn (by simp [hargs.length_eq])

/-- Every primitive does what it means. -/
theorem all_mean : List.Forall₂ (Means ground) all Meaning.all := by
  unfold all Meaning.all
  refine .cons (means_unary fun hS hn hi => .query_gives hS hn (hS.toDepicts.carOf hi)) ?_
  refine .cons (means_unary fun hS hn hi => .query_gives hS hn (hS.toDepicts.cdrOf hi)) ?_
  refine .cons (means_binary fun hS hn hi hj => .cons hS hn hi hj) ?_
  refine .cons (means_binary fun hS hn hi hj => mirrors_effect hn (.setCar hS hn hi hj)) ?_
  refine .cons (means_binary fun hS hn hi hj => mirrors_effect hn (.setCdr hS hn hi hj)) ?_
  refine .cons (means_binary fun hS hn hi hj => mirrors_eq hS hn hi hj) ?_
  refine .cons means_applyList ?_
  refine .cons means_arithmetic ?_
  refine .cons means_arithmetic ?_
  refine .cons means_arithmetic ?_
  refine .cons means_divide ?_
  refine .cons means_quotient ?_
  refine .cons means_remainder ?_
  refine .cons means_comparison ?_
  refine .cons means_comparison ?_
  refine .cons means_exactToInexact ?_
  refine .cons means_inexactToExact ?_
  iterate 12 refine .cons (means_predicate fun h => by cases h <;> rfl) ?_
  refine .cons (means_unary fun hS hn hi => by
      refine Tracks.get_bind ?_
      rw [hS.toDepicts.typeName hi]
      exact .intern hS hn _) ?_
  refine .cons (means_unary fun hS hn hi => mirrors_integerToChar hS hn hi) ?_
  refine .cons (means_unary fun hS hn hi =>
      asks_bind (asks_query hS hn (hS.toDepicts.charOf hi)) fun _ => .integer hS hn _) ?_
  refine .cons (means_unary fun hS hn hi =>
      Tracks.query_bind hS hn (hS.toDepicts.textOf hi) fun _ _ hlength => by
        rw [hlength.2]
        exact .integer hS hn _) ?_
  refine .cons (means_binary fun hS hn hi hj =>
      asks_bind (asks_query hS hn (hS.toDepicts.integerOf hj)) fun _ =>
        asks_bind (asks_query hS hn (hS.toDepicts.stringRef hi _)) fun _ => .character hS hn _) ?_
  refine .cons (means_ternary fun hS hn hi hj hk =>
      asks_bind (asks_query hS hn (hS.toDepicts.integerOf hj)) fun _ =>
        asks_bind (asks_query hS hn (hS.toDepicts.charOf hk)) fun _ =>
          mirrors_effect hn (.stringSet hS hn hi _ _)) ?_
  refine .cons (means_unary fun hS hn hi =>
      asks_bind (asks_newLength hS hn hi) fun _ => .makeString hS hn _ _) ?_
  refine .cons (means_unary fun hS hn hi =>
      Tracks.query_bind hS hn (hS.toDepicts.stringValue hi) fun _ _ hvalue => by
        rw [hvalue]
        exact .intern hS hn _) ?_
  refine .cons (means_unary fun hS hn hi =>
      asks_bind (asks_query hS hn (hS.toDepicts.nameOf hi)) fun _ => .string hS hn _) ?_
  refine .cons means_stringToNumber ?_
  refine .cons means_numberToString ?_
  refine .cons (means_unary fun hS hn hi =>
      Tracks.query_bind hS hn (hS.toDepicts.elementsOf hi) fun _ _ hlength => by
        rw [hlength.2]
        exact .integer hS hn _) ?_
  refine .cons (means_binary fun hS hn hi hj =>
      asks_bind (asks_query hS hn (hS.toDepicts.integerOf hj)) fun _ =>
        .query_gives hS hn (hS.toDepicts.vectorRef hi _)) ?_
  refine .cons (means_ternary fun hS hn hi hj hk =>
      asks_bind (asks_query hS hn (hS.toDepicts.integerOf hj)) fun _ =>
        mirrors_effect hn (.vectorSet hS hn hi _ hk)) ?_
  refine .cons (means_unary fun hS hn hi =>
      asks_bind (asks_newLength hS hn hi) fun _ =>
        (Tracks.undefined hS hn).bind (Nat.le_refl _) fun _ _ _ hT _ hgives =>
          hgives.1 ▸ .makeVector hT (hgives.1 ▸ hn) _ hgives.2) ?_
  refine .cons (means_binary fun hS hn hi hj => .tagged hS hn hi hj) ?_
  refine .cons (means_unary fun hS hn hi =>
      (mirrors_tagParts hS hn hi).bind (Nat.le_refl _) fun _ _ _ hT _ ⟨heq, _, hvalue⟩ => by
        subst heq
        exact .pure hT hn ⟨rfl, hvalue⟩) ?_
  refine .cons (means_unary fun hS hn hi =>
      (mirrors_tagParts hS hn hi).bind (Nat.le_refl _) fun _ _ _ hT _ ⟨heq, hmarker, _⟩ => by
        subst heq
        exact .pure hT hn ⟨rfl, hmarker⟩) ?_
  refine .cons (means_nullary fun hS hn => .pure hS hn ⟨rfl, hS.stays hS.globals⟩) ?_
  refine .cons (means_unary fun hS hn hi =>
      Tracks.query_bind hS hn (hS.toDepicts.stringValue hi) fun _ _ hvalue => by
        rw [hvalue]
        exact mirrors_effect hn (mirrors_emit hS hn _)) ?_
  refine .cons (means_unary fun hS hn hi => by
      refine Tracks.get_bind ?_
      rw [hS.toDepicts.text .display hi]
      exact mirrors_effect hn (mirrors_emit hS hn _)) ?_
  refine .cons (means_unary fun hS hn hi =>
      asks_bind (asks_query hS hn (hS.toDepicts.integerOf hi)) fun _ => .fail hS hn) ?_
  exact .nil

end Primitive

end ArenaScheme
