import ArenaScheme.Proofs.Definitional

/-! Fuel. With more of it the definitional interpreter does what it did with less, unless it ran out.
Another interpreter keeps the pace of a machine: a form in tail position takes a round of the loop that
it is in, and no other fuel. Both interpreters come to the same results. -/

namespace ArenaScheme

/-- `y` does what `x` does, unless `x` runs out of fuel. -/
def Act.Below {α : Type} (x y : Act α) : Prop :=
  ∀ W, (∃ W', x W = .error .outOfFuel W') ∨ x W = y W

namespace Act.Below

variable {α β : Type} {x y z : Act α}

theorem refl (x : Act α) : x.Below x := fun _ => Or.inr rfl

theorem outOfFuel (y : Act α) : Below Act.outOfFuel y := fun W => Or.inl ⟨W, rfl⟩

theorem trans (h : x.Below y) (h' : y.Below z) : x.Below z := fun W =>
  (h W).elim Or.inl fun heq => heq ▸ h' W

theorem bind {f g : α → Act β} (h : x.Below y) (hnext : ∀ a, (f a).Below (g a)) :
    (x >>= f).Below (y >>= g) := by
  intro W
  change (∃ W', EStateM.bind x f W = _) ∨ EStateM.bind x f W = EStateM.bind y g W
  unfold EStateM.bind
  rcases h W with ⟨W', hx⟩ | heq
  · exact Or.inl ⟨W', by rw [hx]⟩
  · rw [heq]
    cases y W with
    | ok a W' => exact hnext a W'
    | error stop W' => exact Or.inr rfl

theorem next {f g : α → Act β} (x : Act α) (hnext : ∀ a, (f a).Below (g a)) :
    (x >>= f).Below (x >>= g) :=
  (refl x).bind hnext

theorem ite {p : Prop} [Decidable p] {x' y' : Act α} (h : x.Below y) (h' : x'.Below y') :
    (if p then x else x').Below (if p then y else y') := by
  split
  · exact h
  · exact h'

end Act.Below

/-- All that one interpreter does the other does as well. -/
structure Recursion.Below (r s : Recursion) : Prop where
  rounds : r.rounds ≤ s.rounds
  evaluate : ∀ form env, (r.evaluate form env).Below (s.evaluate form env)
  tail : ∀ form env, (r.tail form env).Below (s.tail form env)
  call : ∀ procedure args, (r.call procedure args).Below (s.call procedure args)

theorem Recursion.Below.trans {r s t : Recursion} (h : r.Below s) (h' : s.Below t) : r.Below t :=
  ⟨Nat.le_trans h.rounds h'.rounds, fun form env => (h.evaluate form env).trans (h'.evaluate form env),
    fun form env => (h.tail form env).trans (h'.tail form env),
    fun procedure args => (h.call procedure args).trans (h'.call procedure args)⟩

/-! What the parts of an interpreter do depends on fuel in no other way. -/

namespace Meaning

/-- With more fuel the primitive does the same. -/
def Monotone (q : Meaning) : Prop :=
  ∀ (r s : Recursion) (args : List Nat), r.Below s → (q.run r args).Below (q.run s args)

theorem monotone_applyList : applyList.Monotone := by
  intro r s args h
  match args with
  | [procedure, list] => exact .next _ fun _ => .next _ fun xs => h.call procedure xs
  | [] | [_] | _ :: _ :: _ :: _ => exact .refl _

theorem all_monotone : ∀ q ∈ all, q.Monotone := by
  unfold all
  -- of all primitives `apply` alone calls a procedure
  iterate 6 refine List.forall_mem_cons.mpr ⟨fun _ _ _ _ => .refl _, ?_⟩
  refine List.forall_mem_cons.mpr ⟨monotone_applyList, ?_⟩
  iterate 44 refine List.forall_mem_cons.mpr ⟨fun _ _ _ _ => .refl _, ?_⟩
  exact List.forall_mem_nil _

end Meaning

namespace Semantics

variable {r s : Recursion} {form env : Nat}

theorem parameters_below {k l : Nat} (hle : k ≤ l) (formals : Nat) :
    (parameters k formals).Below (parameters l formals) := by
  induction k generalizing l formals with
  | zero => exact .outOfFuel _
  | succ k ih =>
    obtain ⟨l, rfl⟩ : ∃ l', l = l' + 1 := ⟨l - 1, by omega⟩
    refine .next _ fun o => ?_
    cases o with
    | pair car cdr =>
      exact .next _ fun W => .ite (.bind (ih (by omega) cdr) fun _ => .refl _) (.refl _)
    | _ => exact .refl _

theorem makeClosure_below {k l : Nat} (hle : k ≤ l) (name formals body env : Nat) :
    (makeClosure k name formals body env).Below (makeClosure l name formals body env) :=
  .ite (.refl _) (.bind (parameters_below hle formals) fun _ => .refl _)

section

variable (h : r.Below s)
include h

theorem evalSequence_below {k l : Nat} (hle : k ≤ l) (body : Nat) :
    (evalSequence r env k body).Below (evalSequence s env l body) := by
  induction k generalizing l body with
  | zero => exact .outOfFuel _
  | succ k ih =>
    obtain ⟨l, rfl⟩ : ∃ l', l = l' + 1 := ⟨l - 1, by omega⟩
    refine .next _ fun o => ?_
    cases o with
    | pair form rest =>
      exact .ite (h.tail form env) (.bind (h.evaluate form env) fun _ => .next _ fun cdr =>
        ih (by omega) cdr)
    | _ => exact .refl _

theorem evalBranch_below : (evalBranch r form env).Below (evalBranch s form env) := by
  refine .next _ fun o => ?_
  match o with
  | some [test, _, _] =>
    refine .bind (h.evaluate test env) fun test => .next _ fun o => ?_
    match o with
    | some [_, consequent, alternative] => exact h.tail _ env
    | none | some [] | some [_] | some [_, _] | some (_ :: _ :: _ :: _ :: _) => exact .refl _
  | none | some [] | some [_] | some [_, _] | some (_ :: _ :: _ :: _ :: _) => exact .refl _

theorem evalAssign_below : (evalAssign r form env).Below (evalAssign s form env) := by
  refine .next _ fun o => ?_
  match o with
  | some [target, expression] =>
    exact .next _ fun _ => .bind (h.evaluate expression env) fun _ => .refl _
  | none | some [] | some [_] | some (_ :: _ :: _ :: _) => exact .refl _

theorem evalLambda_below : (evalLambda r form env).Below (evalLambda s form env) := by
  refine .next _ fun operands => .next _ fun o => ?_
  cases o with
  | pair formals body => exact .next _ fun _ => makeClosure_below h.rounds _ formals body env
  | _ => exact .refl _

theorem evalDefine_below : (evalDefine r form env).Below (evalDefine s form env) := by
  refine .next _ fun operands => .next _ fun o => ?_
  cases o with
  | pair target body =>
    refine .next _ fun o => ?_
    cases o with
    | symbol =>
      refine .next _ fun W => ?_
      simp only
      match W.store.exactly 1 body with
      | some [expression] => exact .bind (h.evaluate expression env) fun _ => .refl _
      | none | some [] | some (_ :: _ :: _) => exact .refl _
    | pair name formals =>
      exact .next _ fun _ => .bind (makeClosure_below h.rounds name formals body env) fun _ => .refl _
    | _ => exact .refl _
  | _ => exact .refl _

theorem evalSpecial_below (special : SpecialForm) :
    (evalSpecial r special form env).Below (evalSpecial s special form env) := by
  cases special with
  | quote | defineTransformer => exact .refl _
  | branch => exact evalBranch_below h
  | begin => exact .next _ fun body => evalSequence_below h h.rounds body
  | define => exact evalDefine_below h
  | assign => exact evalAssign_below h
  | lambda => exact evalLambda_below h

theorem runBuiltin_below (index : Nat) (args : List Nat) :
    (runBuiltin r index args).Below (runBuiltin s index args) := by
  unfold runBuiltin
  cases hq : Meaning.all[index]? with
  | none => exact .refl _
  | some q => exact .ite (.refl _) (Meaning.all_monotone q (List.mem_of_getElem? hq) r s args h)

theorem invoke_below (procedure : Nat) (args : List Nat) :
    (invoke r procedure args).Below (invoke s procedure args) := by
  refine .next _ fun o => ?_
  cases o with
  | builtin name index => exact runBuiltin_below h index args
  | closure c => exact .next _ fun frame => h.tail c.body frame
  | _ => exact .refl _

theorem evalOperands_below {k l : Nat} (hle : k ≤ l) (list : Nat) :
    (evalOperands r env k list).Below (evalOperands s env l list) := by
  induction k generalizing l list with
  | zero => exact .outOfFuel _
  | succ k ih =>
    obtain ⟨l, rfl⟩ : ∃ l', l = l' + 1 := ⟨l - 1, by omega⟩
    refine .next _ fun o => ?_
    cases o with
    | pair form rest =>
      exact .bind (h.evaluate form env) fun _ => .next _ fun cdr =>
        .bind (ih (by omega) cdr) fun _ => .refl _
    | _ => exact .refl _

theorem evalApplication_below :
    (evalApplication r form env).Below (evalApplication s form env) :=
  .next _ fun head => .bind (h.evaluate head env) fun procedure => .next _ fun list =>
    .bind (evalOperands_below h h.rounds list) fun args => invoke_below h procedure args

theorem eval_below (form env : Nat) : (eval r form env).Below (eval s form env) := by
  refine .next _ fun o => ?_
  cases o with
  | pair head rest =>
    refine .next _ fun W => ?_
    cases W.keywords.specialForm? head with
    | some special => exact evalSpecial_below h special
    | none => exact evalApplication_below h
  | _ => exact .refl _

end

/-! More fuel. -/

theorem recursion_below_succ (fuel : Nat) : (recursion fuel).Below (recursion (fuel + 1)) := by
  induction fuel with
  | zero =>
    exact ⟨Nat.zero_le _, fun _ _ => .outOfFuel _, fun _ _ => .outOfFuel _, fun _ _ => .outOfFuel _⟩
  | succ fuel ih =>
    exact ⟨Nat.le_succ fuel, eval_below ih, eval_below ih, invoke_below ih⟩

theorem recursion_below {k l : Nat} (hle : k ≤ l) : (recursion k).Below (recursion l) := by
  induction hle with
  | refl => exact ⟨Nat.le_refl _, fun _ _ => .refl _, fun _ _ => .refl _, fun _ _ => .refl _⟩
  | step _ ih => exact ih.trans (recursion_below_succ _)

end Semantics

/-! The pace of a machine. -/

/-- The parts of an interpreter that keeps the pace of a machine. A call is told how the form that it
leaves is evaluated. -/
structure Pace where
  rounds : Nat
  evaluate : (form env : Nat) → Act Nat
  invoke : (finish : (form env : Nat) → Act Nat) → (procedure : Nat) → (args : List Nat) → Act Nat

namespace Pace

/-- The interpreter whose forms in tail position are evaluated as told. -/
def recursion (p : Pace) (finish : (form env : Nat) → Act Nat) : Recursion where
  rounds := p.rounds
  evaluate := p.evaluate
  tail := finish
  call := p.invoke finish

/-- Each form in tail position takes a round. -/
def loop (p : Pace) : (rounds : Nat) → (form env : Nat) → Act Nat
  | 0, _, _ => Act.outOfFuel
  | rounds + 1, form, env => Semantics.eval (p.recursion (p.loop rounds)) form env

end Pace

def pace : (fuel : Nat) → Pace
  | 0 =>
    { rounds := 0, evaluate := fun _ _ => Act.outOfFuel, invoke := fun _ _ _ => Act.outOfFuel }
  | fuel + 1 =>
    { rounds := fuel
      evaluate := (pace fuel).loop (pace fuel).rounds
      invoke := fun finish => Semantics.invoke ((pace fuel).recursion finish) }

namespace Semantics

variable {finish : (form env : Nat) → Act Nat}

/-- Whatever an interpreter of some pace does, the definitional one does with enough fuel. -/
theorem exists_pace_below (fuel : Nat) : ∃ n, ∀ finish k,
    (∀ form env, (finish form env).Below ((recursion k).tail form env)) →
    ((pace fuel).recursion finish).Below (recursion (k + n)) := by
  induction fuel with
  | zero =>
    exact ⟨0, fun finish k hfinish => ⟨Nat.zero_le _, fun _ _ => .outOfFuel _, hfinish,
      fun _ _ => .outOfFuel _⟩⟩
  | succ fuel ih =>
    obtain ⟨n, hn⟩ := ih
    have hloop : ∀ rounds, ∃ k, ∀ form env,
        ((pace fuel).loop rounds form env).Below ((recursion k).tail form env) := by
      intro rounds
      induction rounds with
      | zero => exact ⟨0, fun _ _ => .outOfFuel _⟩
      | succ rounds ih =>
        obtain ⟨k, hk⟩ := ih
        exact ⟨k + n + 1, fun form env => eval_below (hn _ k hk) form env⟩
    obtain ⟨k', hk'⟩ := hloop (pace fuel).rounds
    refine ⟨n + 1 + k' + fuel, fun finish k hfinish => ⟨?_, fun form env => ?_, fun form env => ?_,
      fun procedure args => ?_⟩⟩
    · have hrounds : (recursion (k + (n + 1 + k' + fuel))).rounds = k + (n + k' + fuel) := by
        rw [show k + (n + 1 + k' + fuel) = k + (n + k' + fuel) + 1 by omega]
        rfl
      rw [hrounds]
      change fuel ≤ _
      omega
    · have hevaluate : (recursion k').tail = (recursion k').evaluate := by cases k' <;> rfl
      exact (hevaluate ▸ hk' form env).trans ((recursion_below (by omega)).evaluate form env)
    · exact (hfinish form env).trans ((recursion_below (by omega)).tail form env)
    · have hcall : ((recursion (k + n + 1)).call procedure args).Below _ :=
        (recursion_below (by omega : k + n + 1 ≤ k + (n + 1 + k' + fuel))).call procedure args
      exact (invoke_below (hn finish k hfinish) procedure args).trans hcall

/-- Whatever the definitional interpreter does, one of enough pace does. -/
theorem below_pace (fuel : Nat) {n : Nat} (hn : 3 * fuel + 3 ≤ n) :
    (∀ rounds, fuel ≤ rounds → ∀ form env,
      ((recursion fuel).tail form env).Below ((pace n).loop rounds form env)) ∧
    ∀ finish, (∀ form env, ((recursion fuel).tail form env).Below (finish form env)) →
      (recursion fuel).Below ((pace n).recursion finish) := by
  induction fuel generalizing n with
  | zero =>
    exact ⟨fun _ _ _ _ => .outOfFuel _, fun finish hfinish => ⟨Nat.zero_le _, fun _ _ => .outOfFuel _,
      hfinish, fun _ _ => .outOfFuel _⟩⟩
  | succ fuel ih =>
    obtain ⟨n, rfl⟩ : ∃ k, n = k + 3 := ⟨n - 3, by omega⟩
    refine ⟨fun rounds hrounds form env => ?_, fun finish hfinish => ⟨?_, fun form env => ?_, hfinish,
      fun procedure args => ?_⟩⟩
    · obtain ⟨rounds, rfl⟩ : ∃ k, rounds = k + 1 := ⟨rounds - 1, by omega⟩
      obtain ⟨hloop, hpace⟩ := ih (n := n + 3) (by omega)
      exact eval_below (hpace _ (hloop rounds (by omega))) form env
    · change fuel ≤ n + 2
      omega
    · obtain ⟨hloop, hpace⟩ := ih (n := n + 2) (by omega)
      exact eval_below (hpace _ (hloop n (by omega))) form env
    · obtain ⟨-, hpace⟩ := ih (n := n + 2) (by omega)
      refine invoke_below (hpace finish fun form env => ?_) procedure args
      exact ((recursion_below_succ fuel).tail form env).trans (hfinish form env)

end Semantics


end ArenaScheme
