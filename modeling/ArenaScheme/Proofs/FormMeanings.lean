import ArenaScheme.Proofs.PrimitiveMeanings

/-! Closures and special forms of a machine do what they mean for its world. The form and its frame
stand in two slots; they are read again after every evaluation, when the machine may have moved
them. -/

namespace ArenaScheme

open Memory Heap

variable {h : Heap} {slots : List Nat} {b body body' env formals formals' name name' : Nat}

theorem Heap.isSymbol_iff {r : Ref} : h.isSymbol r = true ↔ h.object r = .symbol := by
  unfold isSymbol object
  cases h.kind r <;> simp

theorem Object.Alike.eq_symbol_iff {link : Nat → Nat → Prop} {o o' : Object} (h : o.Alike link o') :
    o = .symbol ↔ o' = .symbol := by
  cases h <;> simp

/-- The check that a thing is a symbol. -/
theorem Depicts.expectSymbol {A : Store} {pos : Nat → Nat → Prop} {i r : Nat}
    (hd : Depicts ground A slots pos h) (hi : pos i r) :
    Answers (fun _ _ => True) (A.nameOf i) (h.expectSymbol r) := by
  have hname := hd.nameOf hi
  unfold Heap.symbolName at hname
  generalize A.nameOf i = a at hname ⊢
  generalize h.expectSymbol r = b at hname ⊢
  cases b with
  | ok _ =>
    cases hname with
    | ok _ => exact .ok trivial
  | error fault =>
    cases hname with
    | error _ hfault => exact .error _ hfault

/-- A form and its frame stand in two slots. -/
structure Scene.Holds (S : Scene) (form env i j : Nat) : Prop where
  form : S.slots[form]? = some i
  env : S.slots[env]? = some j
  frame : (S.world.store.item j).kind = .environment

namespace Scene.Holds

variable {ground : Ground} {S T : Scene} {form env i j k r : Nat}

section

variable (hh : S.Holds form env i j)
include hh

theorem lt : env < S.slots.length :=
  (List.getElem?_eq_some_iff.mp hh.env).1

theorem later (hS : S.Faithful ground) (hages : S.world.store.Ages T.world.store)
    (hform : T.slots[form]? = S.slots[form]?) (henv : T.slots[env]? = S.slots[env]?) :
    T.Holds form env i j := by
  refine ⟨hform.trans hh.form, henv.trans hh.env, (hages.kind j ?_).trans hh.frame⟩
  exact hS.lt (hS.pos_slot hh.env)

theorem same (hS : S.Faithful ground) (hages : S.world.store.Ages T.world.store)
    (hslots : T.slots = S.slots) :
    T.Holds form env i j :=
  hh.later hS hages (by rw [hslots]) (by rw [hslots])

theorem push : (S.push k r).Holds form env i j := by
  have hform := (List.getElem?_eq_some_iff.mp hh.form).1
  exact ⟨(List.getElem?_append_left hform).trans hh.form,
    (List.getElem?_append_left hh.lt).trans hh.env, hh.frame⟩

theorem set {s : Nat} (hform : s ≠ form) (henv : s ≠ env) :
    (S.set s k r).Holds form env i j :=
  ⟨(List.getElem?_set_ne hform).trans hh.form, (List.getElem?_set_ne henv).trans hh.env, hh.frame⟩

end

end Scene.Holds

namespace Tracks

variable {ground : Ground} {n : Nat} {S : Scene} {i j r e : Nat} {γ δ : Type}
  {last : Scene → γ → EStateM.Result Stop World δ → Prop} {finish : (form env : Nat) → Act Nat}

/-- A form that is left to do. -/
theorem tail (hS : S.Faithful ground) (hn : n ≤ S.slots.length) (hi : S.pos i r)
    (hj : S.pos j e) (hk : (S.world.store.item j).kind = .environment) :
    Tracks ground n S (Proceeds finish) (pure (.tail r e)) (finish i j) :=
  .ok hS (.refl hn) (.tail hi hj hk)

/-! Closures. -/

/-- There are no more parameters than pairs in the parameter list, and one that takes the rest. -/
theorem pushParameters (hS : S.Faithful ground) (hn : n ≤ S.slots.length) (rounds : Nat)
    (hi : S.pos i r) :
    Mirrors ground n S
      (fun T rest p => T.world = S.world ∧ T.slots = S.slots ++ p.1 ∧ rest = p.2 ∧
        ∃ k, Chain S.machine.heap.object k r ∧ p.1.length ≤ k + 1)
      (ArenaScheme.pushParameters rounds r) (Semantics.parameters rounds i) := by
  induction rounds generalizing S i r with
  | zero => exact .outOfFuel hS hn
  | succ rounds ih =>
    have hpushed : ∀ {k s}, n ≤ (S.push k s).slots.length := fun {k s} =>
      Nat.le_trans hn (by simp [Scene.push])
    have hr := hS.toDepicts.object hi
    unfold ArenaScheme.pushParameters Semantics.parameters
    refine object_bind hS hi fun o o' _ ho' halike => ?_
    cases halike with
    | null =>
      have hstop : Chain S.machine.heap.object 0 r :=
        .stop fun _ _ heq => by cases ho'.symm.trans heq
      exact .pure hS hn ⟨rfl, (List.append_nil _).symm, rfl, 0, hstop, Nat.zero_le _⟩
    | symbol =>
      have hstop : Chain S.machine.heap.object 0 r :=
        .stop fun _ _ heq => by cases ho'.symm.trans heq
      exact pushRoot_bind hS hn (i := i) (.pure (hS.push hi) hpushed
        ⟨rfl, rfl, rfl, 0, hstop, Nat.le_refl _⟩)
    | @pair car car' cdr cdr' hcar hcdr =>
      refine get_left (get_bind (ite_iff ?_ (fun _ => ?_) fun _ => .fail hS hn))
      · rw [Heap.isSymbol_iff]
        exact (hS.toDepicts.object hcar).eq_symbol_iff.symm
      · refine pushRoot_bind hS hn (i := car) ?_
        rw [← bind_pure (ArenaScheme.pushParameters rounds _)]
        refine (ih (hS.push hcar) hpushed hcdr).bind (Nat.le_refl n)
          fun T rest p hT hsince hpushed => ?_
        obtain ⟨hworld, hslots, hrest, k, hchain, hle⟩ := hpushed
        exact .pure hT hsince.size ⟨hworld, by simp [hslots, Scene.push], hrest, k + 1,
          .pair ho' hchain, Nat.succ_le_succ hle⟩
    | _ => exact .fail hS hn

/-- The end of making a closure, once its name, body and frame and the parameters are in slots. -/
theorem closeOver {names : List Nat} {rest : Bool} (hS : S.Faithful ground)
    (hn : n ≤ slots.length) (hslots : S.slots = slots ++ [name, body, env] ++ names)
    (hkind : (S.world.store.item env).kind = .environment) (harity : names.length < 4294967296) :
    Mirrors ground n S (Gives slots)
      (do
        let formalsSlot ← HeapM.pushRoot (← HeapM.listFromRoots (slots.length + 3) Heap.null)
        let begin := (← get).keywords.begin
        let body ← HeapM.cons begin (← HeapM.root (slots.length + 1))
        let result ← HeapM.closure (← HeapM.root slots.length) (← HeapM.root formalsSlot)
          (← HeapM.root (slots.length + 2)) body names.length rest
        HeapM.releaseRoots slots.length
        return result : Eval Ref)
      (do
        let formals ← Act.step fun A => return A.list Store.null names
        let body ← Act.make (.pair (← get).keywords.begin body)
        Act.make (.closure { name, formals, env, body, arity := names.length, rest })) := by
  have hbase : slots.length + 3 ≤ S.slots.length := by simp [hslots]
  have hnames : S.slots.drop (slots.length + 3) = names := by
    rw [hslots]
    exact List.drop_left' (by simp)
  have henvS : env < S.world.store.items.length :=
    hS.lt (hS.pos_slot (s := slots.length + 2) (by simp [hslots]))
  have hlist := listFromRoots hS (Nat.le_refl _) hbase hS.null
  rw [hnames] at hlist
  refine hlist.bind (by omega) fun T list list' hT hsinceT hgives => ?_
  obtain ⟨hslotsT, hlist⟩ := hgives
  have htake : S.slots.take (slots.length + 3) = slots ++ [name, body, env] := by
    rw [hslots]
    exact List.take_left' (by simp)
  rw [htake] at hslotsT
  have hlengthT : T.slots.length = slots.length + 3 := by simp [hslotsT]
  refine pushRoot_bind hT (by omega) (i := list') ?_
  have hU := hT.push hlist
  have hslotsU : (T.push list' list).slots = slots ++ [name, body, env, list'] := by
    simp [Scene.push, hslotsT]
  refine get_bind (root_bind ?_)
  have hbodyU := hU.pos_slot (s := slots.length + 1) (i := body) (by simp [hslotsU])
  refine (cons hU (Nat.le_refl _) (hU.stays hU.keywords.begin) hbodyU).bind (by simp [hslotsU]; omega)
    fun V form form' hV hsinceV hgives => ?_
  obtain ⟨hslotsV, hform⟩ := hgives
  rw [hslotsU] at hslotsV
  refine root_bind (root_bind (root_bind ?_))
  have hnameV := hV.pos_slot (s := slots.length) (i := name) (by simp [hslotsV])
  have hformalsV := hV.pos_slot (s := T.slots.length) (i := list') (by simp [hslotsV, hlengthT])
  have henvV := hV.pos_slot (s := slots.length + 2) (i := env) (by simp [hslotsV])
  have hkindV : (V.world.store.item env).kind = .environment :=
    ((hsinceT.ages.trans hsinceV.ages).kind env henvS).trans hkind
  have hclosure := closure (n := slots.length) hV (by simp [hslotsV])
    (c := { name, formals := list', env, body := form', arity := names.length, rest })
    (d := ⟨_, _, _, _, names.length, rest⟩) ⟨hnameV, hformalsV, henvV, hform, rfl, rfl⟩ hkindV harity
  rw [← bind_pure (Act.make (.closure _))]
  refine hclosure.bind hn fun W r i hW hsinceW hgives => ?_
  obtain ⟨hslotsW, hi⟩ := hgives
  rw [hslotsV] at hslotsW
  refine releaseRoots_bind (by simp [hslotsW]; omega) hn ?_
  exact .pure (hW.release _) (by simp [Scene.release, hslotsW]; omega)
    ⟨by simp [Scene.release, hslotsW], hi⟩

theorem makeClosure {env' : Nat} (hS : S.Faithful ground) (hn : n ≤ S.slots.length) (rounds : Nat)
    (hname : S.pos name name') (hformals : S.pos formals formals') (hbody : S.pos body body')
    (henv : S.pos env env') (hkind : (S.world.store.item env).kind = .environment) :
    Mirrors ground n S (Gives S.slots)
      (ArenaScheme.makeClosure rounds name' formals' body' env')
      (Semantics.makeClosure rounds name formals body env) := by
  unfold ArenaScheme.makeClosure Semantics.makeClosure
  refine ite_iff (hS.toDepicts.eq_null_iff hbody).symm (fun _ => .fail hS hn) fun _ => ?_
  refine rootCount_bind hS ?_
  refine pushRoot_bind hS hn (i := name) ?_
  have hS₁ := hS.push hname
  refine pushRoot_bind hS₁ (by simp; omega) (i := body) ?_
  have hS₂ := hS₁.push (i := body) (r := body') hbody
  refine pushRoot_bind hS₂ (by simp; omega) (i := env) ?_
  have hS₃ := hS₂.push (i := env) (r := env') henv
  refine rootCount_bind hS₃ ?_
  refine (pushParameters hS₃ (Nat.le_refl _) rounds hformals).bind (by simp; omega)
    fun T rest p hT hsince ⟨hworld, hslots, hrest, k, hchain, hle⟩ => ?_
  obtain ⟨names, rest⟩ := p
  subst hrest
  have hslotsT : T.slots = S.slots ++ [name, body, env] ++ names :=
    hslots.trans (by simp [Scene.push])
  have harity : names.length < 4294967296 := by
    have hle : names.length ≤ k + 1 := hle
    have htop := hS₃.sound.wf.chain_le hchain (hS₃.mem hformals)
    have := hS₃.sound.wf.top_lt
    omega
  refine rootCount_bind hT ?_
  have hcount : T.slots.length - (((S.push name name').push body body').push env env').slots.length =
      names.length := by
    simp [hslotsT]
    omega
  rw [hcount]
  simp only [Scene.length_push]
  exact closeOver hT hn hslotsT (by rw [hworld]; exact hkind) harity

/-! Special forms. -/

variable {calls : Calls} {rec : Recursion} {form env : Nat}

/-- The frame in its slot. -/
theorem frame_bind {f : Nat → Eval γ} {y : Act δ} (hS : S.Faithful ground)
    (hh : S.Holds form env i j)
    (h : S.pos j (S.machine.heap.root env) →
      Tracks ground n S last (f (S.machine.heap.root env)) y) :
    Tracks ground n S last (Eval.onHeap (HeapM.root env) >>= f) y :=
  root_bind (h (hS.pos_slot hh.env))

theorem operandsOf_bind {f : Nat → Eval γ} {g : Nat → Act δ} (hS : S.Faithful ground)
    (hn : n ≤ S.slots.length) (hh : S.Holds form env i j)
    (h : ∀ a b, S.pos b a → Tracks ground n S last (f a) (g b)) :
    Tracks ground n S last (operandsOf form >>= f) (Act.ask (·.cdrOf i) >>= g) := by
  unfold operandsOf
  simp only [bind_assoc]
  exact root_bind (query_bind hS hn (hS.toDepicts.cdrOf (hS.pos_slot hh.form)) h)

theorem exactOperands_bind {f : Option (List Ref) → Eval γ} {g : Option (List Nat) → Act δ}
    (count : Nat) (hS : S.Faithful ground) (hn : n ≤ S.slots.length) (hh : S.Holds form env i j)
    (h : ∀ o o', Option.Rel (List.Forall₂ S.pos) o o' → Tracks ground n S last (f o') (g o)) :
    Tracks ground n S last (exactOperands count form >>= f)
      (Semantics.exactOperands count i >>= g) := by
  unfold exactOperands Semantics.exactOperands
  simp only [bind_assoc, pure_bind]
  exact operandsOf_bind hS hn hh fun a b hab =>
    get_bind (h _ _ (hS.toDepicts.exactly count hab))

section

variable (hcalls : calls.Follows ground rec) (hS : S.Faithful ground)
include hcalls hS

/-- An evaluation leaves the form and its frame where they are. -/
theorem evaluate_bind {f : Nat → Eval γ} {g : Nat → Act δ} {a : Nat} (hn : n ≤ S.slots.length)
    (hh : S.Holds form env i j) (hb : S.pos b a)
    (h : ∀ T x y, T.Faithful ground → T.slots = S.slots → T.Holds form env i j → T.pos y x →
      Tracks ground n T last (f x) (g y)) :
    Tracks ground n S last (calls.evaluate a (S.machine.heap.root env) >>= f)
      (rec.evaluate b j >>= g) :=
  (hcalls.evaluate hS hn hb (hS.pos_slot hh.env) hh.frame).bind (Nat.le_refl n)
    fun T x y hT hsince hgives => h T x y hT hgives.1 (hh.same hS hsince.ages hgives.1) hgives.2

theorem evalBranch (hn : n ≤ S.slots.length) (hh : S.Holds form env i j) :
    Tracks ground n S (Proceeds rec.tail) (ArenaScheme.evalBranch calls form env)
      (Semantics.evalBranch rec i j) := by
  refine exactOperands_bind 3 hS hn hh fun o o' hoperands => ?_
  match hoperands with
  | .some (.cons htest (.cons _ (.cons _ .nil))) =>
    refine frame_bind hS hh fun henv => ?_
    refine evaluate_bind hcalls hS hn hh htest fun T x y hT hslots hh' hxy => ?_
    have hn' : n ≤ T.slots.length := hslots ▸ hn
    refine exactOperands_bind 3 hT hn' hh' fun o o' hoperands => ?_
    match hoperands with
    | .some (.cons _ (.cons hthen (.cons helse .nil))) =>
      refine frame_bind hT hh' fun henv => tail hT hn' ?_ henv hh'.frame
      have hfalse := hT.toDepicts.eq_iff hxy (hT.pos_boolean false)
      by_cases hy : y = Store.falsity
      · rw [if_pos hy, if_neg (by simp [Heap.isTrue, hfalse.mp hy, Heap.boolean])]
        exact helse
      · have hx : x ≠ Heap.falsity := fun heq => hy (hfalse.mpr heq)
        rw [if_neg hy, if_pos (by simp [Heap.isTrue, hx])]
        exact hthen
    | .none | .some .nil | .some (.cons _ .nil) | .some (.cons _ (.cons _ .nil))
    | .some (.cons _ (.cons _ (.cons _ (.cons _ _)))) => exact .fail hT hn'
  | .none | .some .nil | .some (.cons _ .nil) | .some (.cons _ (.cons _ .nil))
  | .some (.cons _ (.cons _ (.cons _ (.cons _ _)))) => exact .fail hS hn

/-- The list in slot `body` gets shorter until its last form is left. -/
theorem evalSequence (hn : n ≤ body) (hh : S.Holds form env i j) (hform : body ≠ form)
    (henv : body ≠ env) (hb : S.slots[body]? = some b) (rounds : Nat) :
    Tracks ground n S (Proceeds rec.tail) (ArenaScheme.evalSequence calls body env rounds)
      (Semantics.evalSequence rec j rounds b) := by
  have hlt : ∀ {T : Scene} {b : Nat}, T.slots[body]? = some b → n ≤ T.slots.length := fun hb =>
    Nat.le_of_lt (Nat.lt_of_le_of_lt hn (List.getElem?_eq_some_iff.mp hb).1)
  induction rounds generalizing S b with
  | zero => exact .outOfFuel hS (hlt hb)
  | succ rounds ih =>
    unfold ArenaScheme.evalSequence Semantics.evalSequence
    refine root_bind (object_bind hS (hS.pos_slot hb) fun o o' _ _ halike => ?_)
    cases halike with
    | pair hfirst hrest =>
      refine frame_bind hS hh fun hframe => ite_iff (hS.toDepicts.eq_null_iff hrest).symm
        (fun _ => tail hS (hlt hb) hfirst hframe hh.frame) fun _ => ?_
      refine evaluate_bind hcalls hS (hlt hb) hh hfirst fun T _ _ hT hslots hh' _ => ?_
      have hbT : T.slots[body]? = some b := hslots ▸ hb
      refine root_bind (query_bind hT (hlt hbT) (hT.toDepicts.cdrOf (hT.pos_slot hbT))
        fun cdr c hcdr => ?_)
      refine setRoot_bind (hlt hbT) hn (i := c) ?_
      exact ih (hT.set body hcdr) (hh'.set hform henv)
        (List.getElem?_set_self (List.getElem?_eq_some_iff.mp hbT).1)
    | _ => exact .fail hS (hlt hb)

end

/-- The end of a form that is evaluated for its effect. -/
theorem effect {x : Eval Unit} {y : Act Unit} (hn : n ≤ S.slots.length)
    (h : Mirrors ground n S (fun T _ _ => T.slots = S.slots) x y) :
    Tracks ground n S (Proceeds finish) (x >>= fun _ => return .done (← Eval.undefined))
      (y >>= fun _ => Act.undefined) :=
  h.bind (Nat.le_refl n) fun _ _ _ hT _ hslots => (undefined hT (hslots ▸ hn)).done

theorem evalAssign (hcalls : calls.Follows ground rec) (hS : S.Faithful ground)
    (hn : n ≤ S.slots.length) (hh : S.Holds form env i j) :
    Tracks ground n S (Proceeds rec.tail) (ArenaScheme.evalAssign calls form env)
      (Semantics.evalAssign rec i j) := by
  refine exactOperands_bind 2 hS hn hh fun o o' hoperands => ?_
  match hoperands with
  | .some (.cons htarget (.cons hexpression .nil)) =>
    refine query_bind hS hn (hS.toDepicts.expectSymbol htarget) fun _ _ _ => ?_
    refine frame_bind hS hh fun _ => ?_
    refine evaluate_bind hcalls hS hn hh hexpression fun T x y hT hslots hh' hxy => ?_
    have hn' : n ≤ T.slots.length := hslots ▸ hn
    refine operandsOf_bind hT hn' hh' fun _ _ hoperands => ?_
    refine query_bind hT hn' (hT.toDepicts.carOf hoperands) fun _ _ htarget => ?_
    exact frame_bind hT hh' fun henv => effect hn' (assign hT hn' henv htarget hxy)
  | .none | .some .nil | .some (.cons _ .nil) | .some (.cons _ (.cons _ (.cons _ _))) =>
    exact .fail hS hn

theorem evalLambda (hcalls : calls.Follows ground rec) (hS : S.Faithful ground)
    (hn : n ≤ S.slots.length) (hh : S.Holds form env i j) :
    Tracks ground n S (Proceeds rec.tail) (ArenaScheme.evalLambda calls form env)
      (Semantics.evalLambda rec i j) := by
  refine operandsOf_bind hS hn hh fun _ _ hoperands => ?_
  refine object_bind hS hoperands fun o o' _ _ halike => ?_
  cases halike with
  | pair hformals hbody =>
    refine get_bind (frame_bind hS hh fun henv => ?_)
    rw [hcalls.rounds]
    exact (makeClosure hS hn rec.rounds (hS.stays hS.keywords.lambda) hformals hbody henv
      hh.frame).done
  | _ => exact .fail hS hn

/-- The definition of a procedure from its signature. -/
theorem defineProcedure (hS : S.Faithful ground) (hn : n ≤ S.slots.length)
    (hh : S.Holds form env i j) (hname : S.pos name name') (hformals : S.pos formals formals')
    (hbody : S.pos body body') (rounds : Nat) :
    Tracks ground n S (Proceeds finish)
      (do
        let slot ← HeapM.pushRoot (← ArenaScheme.makeClosure rounds name' formals' body'
          (S.machine.heap.root env))
        let operands ← operandsOf form
        let signature ← HeapM.query (·.car operands)
        let name ← HeapM.query (·.car signature)
        HeapM.define (← HeapM.root env) name (← HeapM.root slot)
        return .done (← Eval.undefined) : Eval Step)
      (do
        let closure ← Semantics.makeClosure rounds name formals body j
        let operands ← Act.ask (·.cdrOf i)
        let signature ← Act.ask (·.carOf operands)
        let name ← Act.ask (·.carOf signature)
        Act.update (·.define j name closure)
        Act.undefined) := by
  refine (makeClosure hS hn rounds hname hformals hbody (hS.pos_slot hh.env) hh.frame).bind
    (Nat.le_refl n) fun T r c hT hsince hgives => ?_
  have hh' := (hh.same hS hsince.ages hgives.1).push (k := c) (r := r)
  refine pushRoot_bind hT hsince.size (i := c) ?_
  have hU := hT.push hgives.2
  have hn' : n ≤ (T.push c r).slots.length := Nat.le_trans hsince.size (by simp)
  refine operandsOf_bind hU hn' hh' fun _ _ hoperands => ?_
  refine query_bind hU hn' (hU.toDepicts.carOf hoperands) fun _ _ hsignature => ?_
  refine query_bind hU hn' (hU.toDepicts.carOf hsignature) fun _ _ hname => ?_
  refine frame_bind hU hh' fun henv => root_bind ?_
  have hvalue := hU.pos_slot (s := T.slots.length) (i := c) (by simp [Scene.push])
  exact effect hn' (define hU hn' henv hname hvalue)

theorem evalDefine (hcalls : calls.Follows ground rec) (hS : S.Faithful ground)
    (hn : n ≤ S.slots.length) (hh : S.Holds form env i j) :
    Tracks ground n S (Proceeds rec.tail) (ArenaScheme.evalDefine calls form env)
      (Semantics.evalDefine rec i j) := by
  refine operandsOf_bind hS hn hh fun _ _ hoperands => ?_
  refine object_bind hS hoperands fun o o' _ _ halike => ?_
  cases halike with
  | pair htarget hbody =>
    refine object_bind hS htarget fun o o' _ _ halike => ?_
    cases halike with
    | symbol =>
      refine get_bind ?_
      have hexpression := hS.toDepicts.exactly 1 hbody
      simp only
      generalize S.machine.heap.exactly 1 _ = o at hexpression ⊢
      generalize S.world.store.exactly 1 _ = o' at hexpression ⊢
      match hexpression with
      | .some (.cons hexpression .nil) =>
        refine frame_bind hS hh fun _ => ?_
        refine evaluate_bind hcalls hS hn hh hexpression fun T x y hT hslots hh' hxy => ?_
        have hn' : n ≤ T.slots.length := hslots ▸ hn
        refine operandsOf_bind hT hn' hh' fun _ _ hoperands => ?_
        refine query_bind hT hn' (hT.toDepicts.carOf hoperands) fun _ _ htarget => ?_
        exact frame_bind hT hh' fun henv => effect hn' (define hT hn' henv htarget hxy)
      | .none | .some .nil | .some (.cons _ (.cons _ _)) => exact .fail hS hn
    | pair hname hformals =>
      refine query_bind hS hn (hS.toDepicts.expectSymbol hname) fun _ _ _ => ?_
      refine root_bind ?_
      rw [hcalls.rounds]
      exact defineProcedure hS hn hh hname hformals hbody rec.rounds
    | _ => exact .fail hS hn
  | _ => exact .fail hS hn

theorem evalSpecial (hcalls : calls.Follows ground rec) (hS : S.Faithful ground)
    (hn : n ≤ S.slots.length) (hh : S.Holds form env i j) (special : SpecialForm) :
    Tracks ground n S (Proceeds rec.tail) (ArenaScheme.evalSpecial calls special form env)
      (Semantics.evalSpecial rec special i j) := by
  cases special with
  | quote =>
    refine exactOperands_bind 1 hS hn hh fun o o' hoperands => ?_
    match hoperands with
    | .some (.cons hdatum .nil) => exact .ok hS (.refl hn) (.done hdatum)
    | .none | .some .nil | .some (.cons _ (.cons _ _)) => exact .fail hS hn
  | branch => exact evalBranch hcalls hS hn hh
  | begin =>
    refine operandsOf_bind hS hn hh fun a b hoperands => ?_
    refine pushRoot_bind hS hn (i := b) ?_
    rw [hcalls.rounds]
    refine evalSequence hcalls (hS.push hoperands) hn hh.push (fun heq => ?_)
      (Nat.ne_of_gt hh.lt) (by simp [Scene.push]) rec.rounds
    exact Nat.lt_irrefl _ (heq ▸ (List.getElem?_eq_some_iff.mp hh.form).1)
  | define => exact evalDefine hcalls hS hn hh
  | assign => exact evalAssign hcalls hS hn hh
  | lambda => exact evalLambda hcalls hS hn hh
  | defineTransformer => exact .fail hS hn

end Tracks

end ArenaScheme
