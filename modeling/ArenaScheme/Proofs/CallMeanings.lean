import ArenaScheme.Proofs.FormMeanings
import ArenaScheme.Proofs.Fuel

/-! Calls and evaluations of a machine do what they mean for its world. The loop of the machine over two
slots takes a round for each form in tail position, like the interpreter that keeps its pace. -/

namespace ArenaScheme

open Memory Heap

variable {α β : Type} {args : List Nat} {formals i : Nat} {p : Pace} {A B : Store}

theorem forall₂_getElem? {R : α → β → Prop} {xs : List α} {ys : List β} (h : List.Forall₂ R xs ys)
    (i : Nat) : Option.Rel R xs[i]? ys[i]? := by
  induction h generalizing i with
  | nil => exact .none
  | cons hxy _ ih =>
    cases i with
    | zero => exact .some hxy
    | succ i => exact ih i

/-- A new frame with parameters leaves older things as they are. -/
theorem Store.Grows.bindAll {C : Store} {f : Nat} {values : List Nat} (hg : A.Grows B)
    (hf : A.items.length ≤ f) (h : B.bindAll f formals values = .ok C) : A.Grows C := by
  induction values generalizing B formals with
  | nil =>
    cases h
    exact hg
  | cons v values ih =>
    rw [Store.bindAll] at h
    cases he : B.expect .pair "pair" formals with
    | error fault =>
      rw [he] at h
      cases h
    | ok _ =>
      cases hd : B.define f (B.car formals) v with
      | error fault =>
        simp only [he, hd, bind, Except.bind] at h
        cases h
      | ok D =>
        simp only [he, hd, bind, Except.bind] at h
        exact ih ((define_eq_ok hd).2 ▸ hg.setVar hf) h

theorem Store.grows_extend {p arity frame : Nat} {rest : Bool}
    (h : A.extend p formals arity rest args = .ok (frame, B)) : A.Grows B := by
  unfold Store.extend at h
  cases he : A.expect .environment "environment" p with
  | error fault =>
    rw [he] at h
    cases h
  | ok _ =>
    cases hf : HeapM.fixedParameters arity rest args.length with
    | error fault =>
      simp only [he, hf, bind, Except.bind] at h
      cases h
    | ok fixed =>
      generalize hmade : (if rest then A.list 0 (args.drop fixed) else (0, A)) = made at h
      obtain ⟨hlist, hle⟩ : A.Grows made.2 ∧ A.items.length ≤ made.2.items.length := by
        rw [← hmade]
        split
        · exact A.grows_list 0 _
        · exact ⟨.refl A, Nat.le_refl _⟩
      simp only [he, hf, hmade, bind, Except.bind] at h
      split at h
      · cases h
      · rename_i D hD
        cases h
        have hmake : A.Grows (made.2.make (.frame (some p) fun _ => none)).2 :=
          hlist.make hle fun _ heq => nomatch heq
        exact hmake.bindAll hle hD

theorem Store.Grows.item_eq (hg : A.Grows B) (hi : i < A.items.length) : B.item i = A.item i := by
  unfold Store.item
  rw [hg.items i hi]

/-- A head is the name of the same special form. -/
theorem Keywords.Alike.specialForm? {link : Nat → Nat → Prop} {k l : Keywords} {r : Nat}
    (hk : k.Alike link l) (heq : ∀ {j t}, link j t → (i = j ↔ r = t)) :
    k.specialForm? i = l.specialForm? r := by
  have hforms := hk.forms
  unfold Keywords.specialForm?
  generalize k.forms = xs at hforms ⊢
  generalize l.forms = ys at hforms ⊢
  induction hforms with
  | nil => rfl
  | @cons p q xs ys hpq _ ih =>
    obtain ⟨j, form⟩ := p
    obtain ⟨t, form'⟩ := q
    obtain rfl : form = form' := hpq.2
    have hhead : (i == j) = (r == t) := by
      rw [Bool.eq_iff_iff, beq_iff_eq, beq_iff_eq]
      exact heq hpq.1
    rw [List.lookup_cons, List.lookup_cons, hhead, ih]

namespace Tracks

variable {ground : Ground} {n : Nat} {S : Scene} {i j r e : Nat} {γ δ : Type}
  {last : Scene → γ → EStateM.Result Stop World δ → Prop} {calls : Calls} {rec : Recursion}

/-- The machine goes on after a step, while the world may have come to its end. -/
theorem bind_left {k : Nat} {ends : Scene → α → EStateM.Result Stop World β → Prop}
    {final : Scene → γ → EStateM.Result Stop World β → Prop} {x : Eval α} {y : Act β}
    {f : α → Eval γ} (h : Tracks ground k S ends x y) (hk : n ≤ k)
    (hnext : ∀ T a q, T.Faithful ground → Since k S T → ends T a q →
      Tracked ground n T final (f a T.machine) q) : Tracks ground n S final (x >>= f) y := by
  unfold Tracks at h ⊢
  change Tracked ground n S final (EStateM.bind x f _) _
  unfold EStateM.bind
  generalize x S.machine = p at h ⊢
  generalize y S.world = q at h ⊢
  cases h with
  | ok hT hsince hends =>
    exact Tracked.mono (hnext _ _ _ hT hsince hends) (Nat.le_refl n)
      (fun _ hsince' => (hsince.mono hk).trans hsince') fun _ _ _ _ _ hfinal => hfinal
  | @error T m stop hT hsince hm =>
    have hstopped : Tracked ground k S final (.error stop m) (.error stop T.world) :=
      .error hT hsince hm
    exact hstopped.mono hk (fun _ hsince' => hsince'.mono hk) fun _ _ _ _ _ hfinal => hfinal
  | exhausted hfault => exact .exhausted hfault

/-- A question that the machine asks again. -/
theorem query_left {question : Heap → Except Fault α} {a : α} {f : α → Eval γ} {y : Act δ}
    (hn : n ≤ S.slots.length) (ha : question S.machine.heap = .ok a)
    (h : Tracks ground n S last (f a) y) :
    Tracks ground n S last (Eval.onHeap (HeapM.query question) >>= f) y := by
  refine of_left ?_ rfl (.refl hn) h
  unfold Eval.onHeap HeapM.query
  rw [ha]

/-! Calls. -/

/-- The values in the slots from `args` on. -/
theorem rootsBetween_bind {f : List Ref → Eval γ} {y : Act δ} {args : Nat} (hS : S.Faithful ground)
    (h : ∀ rs, List.Forall₂ S.pos (S.slots.drop args) rs → Tracks ground n S last (f rs) y) :
    Tracks ground n S last
      (Eval.onHeap HeapM.rootCount >>= fun count =>
        Eval.onHeap (HeapM.rootsBetween args count) >>= f) y := by
  refine rootCount_bind hS ?_
  change Tracks ground n S last (f (S.machine.heap.roots.extract args S.slots.length).toList) y
  refine h _ ?_
  have hroots : (S.machine.heap.roots.extract args S.slots.length).toList =
      S.machine.heap.roots.toList.drop args := by
    rw [← hS.length, Array.toList_extract, List.extract_eq_take_drop,
      List.take_of_length_le (by simp)]
  rw [hroots]
  exact List.forall₂_drop args hS.slots

theorem runBuiltin {host : Procedures} {index : Nat} {args' : List Nat}
    (hcalls : calls.Follows ground rec) (hS : S.Faithful ground) (hn : n ≤ S.slots.length)
    (hargs : List.Forall₂ S.pos args args') :
    Tracks ground n S (Proceeds rec.tail) (ArenaScheme.runBuiltin host calls index args')
      (Semantics.runBuiltin rec index args) := by
  have htable : Option.Rel (Primitive.Means ground) Primitive.table[index]?
      Meaning.all[index]? := by
    rw [Primitive.table, List.getElem?_toArray]
    exact forall₂_getElem? Primitive.all_mean index
  unfold ArenaScheme.runBuiltin Semantics.runBuiltin
  generalize Primitive.table[index]? = p at htable ⊢
  generalize Meaning.all[index]? = q at htable ⊢
  cases htable with
  | none =>
    refine get_left ?_
    rw [hS.hosts]
    exact .fail hS hn
  | some hmeans =>
    simp only [hargs.length_eq, hmeans.arity]
    exact .ite (fun _ => .fail hS hn) fun _ => hmeans.run hcalls hS hn hargs

theorem invoke {operator args p : Nat} (hcalls : calls.Mimics ground rec)
    (hS : S.Faithful ground) (hn : n ≤ S.slots.length) (hp : S.slots[operator]? = some p) :
    Tracks ground n S (Proceeds rec.tail) (ArenaScheme.invoke calls operator args)
      (Semantics.invoke rec p (S.slots.drop args)) := by
  have hpos := hS.pos_slot hp
  unfold ArenaScheme.invoke Semantics.invoke
  refine root_bind (object_bind hS hpos fun o o' ho _ halike => ?_)
  cases halike with
  | builtin index _ => exact rootsBetween_bind hS fun rs hrs => hcalls.builtin hS hn hrs
  | @closure c d hc =>
    have hitem : S.world.store.item p = .closure c := by
      unfold Store.object at ho
      generalize S.world.store.item p = item at ho ⊢
      cases item with
      | singleton kind => cases kind <;> cases ho
      | _ => cases ho <;> rfl
    have hframe : (S.world.store.item c.env).kind = .environment := by
      obtain ⟨item, hget, _⟩ := hS.toDepicts.item hpos
      refine hS.captured p c (hget.trans (congrArg some ?_))
      rw [← hitem, Store.item, hget, Option.getD_some]
    simp only [← hc.arity, ← hc.rest]
    refine (extend hS hn hc.env hc.formals hframe).bind (Nat.le_refl n)
      fun T env frame hT hsince hextended => root_bind ?_
    obtain ⟨⟨hslots, hpos'⟩, hextend⟩ := hextended
    have hpT := hT.pos_slot (s := operator) (i := p) (by rw [hslots]; exact hp)
    have hclosure : T.world.store.closureOf p = .ok c := by
      unfold Store.closureOf Store.ask
      rw [(Store.grows_extend hextend).item_eq (hS.lt hpos), hitem]
      rfl
    have hview := hT.toDepicts.closureOf hpT
    rw [hclosure] at hview
    cases hrun : T.machine.heap.closureView (T.machine.heap.root operator) with
    | error fault =>
      rw [hrun] at hview
      cases hview
    | ok c' =>
      rw [hrun] at hview
      refine query_left hsince.size hrun (tail hT hsince.size ?_ hpos' (Store.Ages.extend hextend).2)
      cases hview with
      | ok hc' => exact hc'.body
  | _ =>
    refine get_left (get_bind ?_)
    rw [hS.toDepicts.text .display hpos]
    exact .fail hS hn

/-! Evaluations. -/

variable {form env : Nat}

/-- The values of the operands come to stand above what the slots held, and the list in slot `cursor`
gets shorter. -/
theorem evalOperands {cursor list : Nat} (hcalls : calls.Follows ground rec)
    (hS : S.Faithful ground) (hn : n ≤ cursor) (hh : S.Holds form env i j) (hform : cursor ≠ form)
    (henv : cursor ≠ env) (hlist : S.slots[cursor]? = some list) (rounds : Nat) :
    Mirrors ground n S
      (fun T _ values => ∃ rest, T.slots = S.slots.set cursor rest ++ values)
      (ArenaScheme.evalOperands calls env cursor rounds)
      (Semantics.evalOperands rec j rounds list) := by
  have hlt : ∀ {T : Scene} {list : Nat}, T.slots[cursor]? = some list → cursor < T.slots.length :=
    fun hlist => (List.getElem?_eq_some_iff.mp hlist).1
  have hle : ∀ {T : Scene} {list : Nat}, T.slots[cursor]? = some list → n ≤ T.slots.length :=
    fun hlist => Nat.le_of_lt (Nat.lt_of_le_of_lt hn (hlt hlist))
  induction rounds generalizing S list with
  | zero => exact .outOfFuel hS (hle hlist)
  | succ rounds ih =>
    unfold ArenaScheme.evalOperands Semantics.evalOperands
    refine root_bind (object_bind hS (hS.pos_slot hlist) fun o o' _ _ halike => ?_)
    cases halike with
    | null =>
      refine .pure hS (hle hlist) ⟨list, ?_⟩
      rw [List.append_nil, set_of_getElem? hlist]
    | pair hfirst _ =>
      refine frame_bind hS hh fun _ => ?_
      refine evaluate_bind hcalls hS (hle hlist) hh hfirst fun T r x hT hslots hh' hx => ?_
      have hlistT : T.slots[cursor]? = some list := hslots ▸ hlist
      refine pushRoot_bind hT (hle hlistT) (i := x) ?_
      have hU := hT.push hx
      have hlistU : (T.push x r).slots[cursor]? = some list :=
        (List.getElem?_append_left (hlt hlistT)).trans hlistT
      refine root_bind (query_bind hU (hle hlistU) (hU.toDepicts.cdrOf (hU.pos_slot hlistU))
        fun cdr rest hrest => ?_)
      refine setRoot_bind (hle hlistU) hn (i := rest) ?_
      have hlistV : ((T.push x r).set cursor rest cdr).slots[cursor]? = some rest :=
        List.getElem?_set_self (hlt hlistU)
      rw [← bind_pure (ArenaScheme.evalOperands calls env cursor rounds)]
      refine (ih (hU.set cursor hrest) (hh'.push.set hform henv) hlistV).bind (Nat.le_refl n)
        fun V _ values hV hsince ⟨final, hfinal⟩ => .pure hV hsince.size ⟨final, ?_⟩
      have hset : ((T.push x r).set cursor rest cdr).slots.set cursor final =
          S.slots.set cursor final ++ [x] := by
        simp only [Scene.set, Scene.push, List.set_set, hslots]
        exact List.set_append_left _ _ (hlt hlist)
      rw [hfinal, hset, List.append_assoc, List.singleton_append]
    | _ => exact .fail hS (hle hlist)

theorem evalApplication (hcalls : calls.Mimics ground rec) (hS : S.Faithful ground)
    (hn : n ≤ S.slots.length) (hh : S.Holds form env i j) :
    Tracks ground n S (Proceeds rec.tail) (ArenaScheme.evalApplication calls form env)
      (Semantics.evalApplication rec i j) := by
  unfold ArenaScheme.evalApplication Semantics.evalApplication
  refine root_bind (query_bind hS hn (hS.toDepicts.carOf (hS.pos_slot hh.form))
    fun head head' hhead => ?_)
  refine frame_bind hS hh fun _ => ?_
  refine evaluate_bind hcalls.toFollows hS hn hh hhead fun T r p hT hslots hh' hp => ?_
  have hnT : n ≤ T.slots.length := hslots ▸ hn
  refine pushRoot_bind hT hnT (i := p) ?_
  have hU := hT.push hp
  have hnU : n ≤ (T.push p r).slots.length := by simp; omega
  refine operandsOf_bind hU hnU hh'.push fun list list' hlist => ?_
  refine pushRoot_bind hU hnU (i := list') ?_
  have hV := hU.push hlist
  refine rootCount_bind hV ?_
  rw [hcalls.rounds]
  have hcursor : ((T.push p r).push list' list).slots[(T.push p r).slots.length]? = some list' := by
    simp [Scene.push]
  have hne : ∀ {s k : Nat}, T.slots[s]? = some k → (T.push p r).slots.length ≠ s := fun hs heq => by
    have := (List.getElem?_eq_some_iff.mp hs).1
    simp only [Scene.length_push] at heq
    omega
  refine (evalOperands hcalls.toFollows hV hnU hh'.push.push (hne hh'.form) (hne hh'.env) hcursor
    rec.rounds).bind (Nat.le_refl n) fun U _ values hU hsince hvalues => ?_
  obtain ⟨rest, hslotsU⟩ := hvalues
  have hset : ((T.push p r).push list' list).slots.set (T.push p r).slots.length rest =
      T.slots ++ [p, rest] := by
    simp [Scene.push]
  rw [hset] at hslotsU
  have hvalues : values = U.slots.drop ((T.push p r).push list' list).slots.length := by
    rw [hslotsU]
    exact (List.drop_left' (by simp)).symm
  rw [hvalues]
  exact invoke hcalls hU hsince.size (by simp [hslotsU])

/-- One turn of the evaluator. -/
theorem evalTurn (hcalls : calls.Mimics ground rec) (hS : S.Faithful ground)
    (hn : n ≤ S.slots.length) (hh : S.Holds form env i j) :
    Tracks ground n S (Proceeds rec.tail) (ArenaScheme.evalTurn calls form env)
      (Semantics.eval rec i j) := by
  have hpos := hS.pos_slot hh.form
  unfold ArenaScheme.evalTurn Semantics.eval
  refine root_bind (object_bind hS hpos fun o o' _ _ halike => ?_)
  cases halike with
  | null | vector => exact .fail hS hn
  | symbol => exact frame_bind hS hh fun hframe => (lookup hS hn hframe hpos).done
  | @pair head head' _ _ hhead _ =>
    refine get_bind ?_
    have hspecial : S.world.keywords.specialForm? head = S.machine.keywords.specialForm? head' :=
      hS.keywords.specialForm? fun hj => hS.toDepicts.eq_iff hhead (hS.stays hj)
    rw [hspecial]
    cases S.machine.keywords.specialForm? head' with
    | some special => exact evalSpecial hcalls.toFollows hS hn hh special
    | none => exact evalApplication hcalls hS hn hh
  | _ => exact .ok hS (.refl hn) (.done hpos)

/-- The loop over the two slots keeps its pace. Only they are left before each turn. -/
theorem evalLoop (hcalls : ∀ finish, calls.Mimics ground (p.recursion finish))
    (hS : S.Faithful ground) (hh : S.Holds form env i j) (hn : n ≤ form) (horder : form < env)
    (rounds : Nat) :
    Mirrors ground n S (fun T r i => T.pos i r) (ArenaScheme.evalLoop calls form env rounds)
      (p.loop rounds i j) := by
  have hle : ∀ {T : Scene} {i j : Nat}, T.Holds form env i j → n ≤ T.slots.length := fun hh => by
    have := hh.lt
    omega
  induction rounds generalizing S i j with
  | zero => exact .outOfFuel hS (hle hh)
  | succ rounds ih =>
    unfold ArenaScheme.evalLoop Pace.loop
    refine releaseRoots_bind (hle hh) (by omega) ?_
    have hT := hS.release (env + 1)
    have hlengthT : (S.release (env + 1)).slots.length = env + 1 := by
      have := hh.lt
      simp [Scene.release]
      omega
    have hhT : (S.release (env + 1)).Holds form env i j :=
      hh.later hS (.refl _) (List.getElem?_take_of_lt (by omega)) (List.getElem?_take_of_lt (by omega))
    refine bind_left (evalTurn (hcalls (p.loop rounds)) hT (Nat.le_of_eq hlengthT.symm) hhT)
      (by omega) fun U step q hU hsince hproceeds => ?_
    have hn' : n ≤ U.slots.length := Nat.le_trans (by omega) hsince.size
    cases hproceeds with
    | done hi => exact .ok hU (.refl hn') ⟨_, rfl, hi⟩
    | @tail r e i j hi hj hk =>
      have hsize := hsince.size
      refine setRoot_bind (y := p.loop rounds i j) hn' hn (i := i) ?_
      refine setRoot_bind (by simp [Scene.set]; omega) (by omega) (i := j) ?_
      refine ih ((hU.set form hi).set env hj) ⟨?_, ?_, hk⟩
      · simp only [Scene.set]
        rw [List.getElem?_set_ne (by omega), List.getElem?_set_self (by omega)]
      · simp only [Scene.set]
        rw [List.getElem?_set_self (by simp; omega)]

theorem evaluate (hcalls : ∀ finish, calls.Mimics ground (p.recursion finish))
    (hS : S.Faithful ground) (hi : S.pos i r) (hj : S.pos j e)
    (hk : (S.world.store.item j).kind = .environment) :
    Mirrors ground S.slots.length S (Gives S.slots) (ArenaScheme.evaluate calls r e)
      (p.loop p.rounds i j) := by
  refine keepingRoots hS (pushRoot_bind hS (Nat.le_refl _) (i := i) ?_)
  have hT := hS.push hi
  refine pushRoot_bind hT (by simp) (i := j) ?_
  have hU := hT.push (i := j) (r := e) hj
  have hrounds : calls.rounds = p.rounds := (hcalls p.evaluate).rounds
  rw [hrounds]
  exact evalLoop hcalls hU ⟨by simp [Scene.push], by simp [Scene.push], hk⟩ (Nat.le_refl _)
    (by simp) p.rounds

end Tracks

/-- The table is given an interpreter with the same parts. -/
theorem Calls.Follows.equip {ground : Ground} {calls : Calls} {rec : Recursion}
    (hcalls : calls.Follows ground rec) (host : Procedures) :
    (interpreterWith.equip (runBuiltin host) calls).Mimics ground rec :=
  ⟨⟨hcalls.rounds, hcalls.evaluate, hcalls.call⟩, .runBuiltin hcalls⟩

/-- With any fuel the interpreter keeps its pace. -/
theorem interpreter_mimics (ground : Ground) (fuel : Nat)
    (finish : (form env : Nat) → Act Nat) :
    (interpreter fuel).Mimics ground ((pace fuel).recursion finish) := by
  induction fuel generalizing finish with
  | zero =>
    exact Calls.Follows.equip
      ⟨rfl, fun hS hn _ _ _ => .outOfFuel hS hn, fun hS hn _ _ => .outOfFuel hS hn⟩ _
  | succ fuel ih =>
    refine Calls.Follows.equip
      ⟨rfl, fun hS hn hi hj hk => ?_, fun hS hn hp _ => .invoke (ih finish) hS hn hp⟩ _
    exact (Tracks.evaluate ih hS hi hj hk).mono hn fun _ _ _ _ _ harrives => harrives

end ArenaScheme
