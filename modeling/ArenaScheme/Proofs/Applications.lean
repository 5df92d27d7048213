import ArenaScheme.Proofs.Fuel
import ArenaScheme.Proofs.Likeness

/-! Applications in the definitional interpreter. Once the operator and the operands have values, all
that is left is the call; and a call of `apply` is the call that it is asked to make. -/

namespace ArenaScheme

namespace Store

variable {A : Store} {i : Nat} {xs : List Nat}

/-- A list of the things `xs`. -/
inductive ListOf (A : Store) : List Nat → Nat → Prop
  | nil {i : Nat} : A.object i = .null → ListOf A [] i
  | cons {i x cdr : Nat} {xs : List Nat} : A.object i = .pair x cdr → ListOf A xs cdr →
    ListOf A (x :: xs) i

theorem item_of_object {x cdr : Nat} (h : A.object i = .pair x cdr) : A.item i = .pair x cdr := by
  unfold object at h
  generalize A.item i = item at h ⊢
  cases item with
  | singleton kind => cases kind <;> cases h
  | _ => cases h <;> rfl

theorem carOf_of_object {x cdr : Nat} (h : A.object i = .pair x cdr) : A.carOf i = .ok x := by
  unfold carOf ask
  rw [item_of_object h]
  rfl

theorem cdrOf_of_object {x cdr : Nat} (h : A.object i = .pair x cdr) : A.cdrOf i = .ok cdr := by
  unfold cdrOf ask
  rw [item_of_object h]
  rfl

end Store

namespace Act

variable {α β : Type} {W W' : World} {x : Act α} {f : α → Act β} {a : α}

theorem bind_eq (h : x W = .ok a W') : (x >>= f) W = f a W' := by
  change EStateM.bind x f W = _
  rw [EStateM.bind, h]

theorem object_bind {i : Nat} {f : Object → Act β} :
    (object i >>= f) W = f (W.store.object i) W := rfl

theorem ask_eq {question : Store → Except Fault α} (h : question W.store = .ok a) :
    ask question W = .ok a W := by
  unfold ask
  rw [h]

end Act

namespace Semantics

variable {rec : Recursion} {W W' : World} {form env head rest list p : Nat} {os vs : List Nat}

/-- The operands of a call, when none of them has an effect. -/
theorem evalOperands_eq (hlist : W.store.ListOf os list)
    (hos : List.Forall₂ (fun o v => rec.evaluate o env W = .ok v W) os vs) {rounds : Nat}
    (hrounds : os.length < rounds) : evalOperands rec env rounds list W = .ok vs W := by
  induction hlist generalizing vs rounds with
  | nil hi =>
    obtain ⟨rounds, rfl⟩ : ∃ k, rounds = k + 1 := ⟨rounds - 1, by omega⟩
    cases hos
    rw [evalOperands, Act.object_bind, hi]
    rfl
  | cons hi _ ih =>
    obtain ⟨rounds, rfl⟩ : ∃ k, rounds = k + 1 := ⟨rounds - 1, by omega⟩
    cases hos with
    | cons ho hos =>
      rw [evalOperands, Act.object_bind, hi]
      refine (Act.bind_eq ho).trans ?_
      refine (Act.bind_eq (Act.ask_eq (Store.cdrOf_of_object hi))).trans ?_
      exact (Act.bind_eq (ih hos (by simp only [List.length_cons] at hrounds; omega))).trans rfl

/-- An application whose operator has the value `p` and whose operands have no effect is a call. -/
theorem eval_eq_invoke (hform : W.store.object form = .pair head rest)
    (hspecial : W.keywords.specialForm? head = none) (hhead : rec.evaluate head env W = .ok p W')
    (hrest : W'.store.cdrOf form = .ok list) (hlist : W'.store.ListOf os list)
    (hos : List.Forall₂ (fun o v => rec.evaluate o env W' = .ok v W') os vs)
    (hrounds : os.length < rec.rounds) : eval rec form env W = invoke rec p vs W' := by
  have happlication : eval rec form env W = evalApplication rec form env W := by
    rw [eval, Act.object_bind, hform]
    refine (Act.bind_eq rfl).trans ?_
    rw [hspecial]
  rw [happlication]
  refine (Act.bind_eq (Act.ask_eq (Store.carOf_of_object hform))).trans ?_
  refine (Act.bind_eq hhead).trans ?_
  refine (Act.bind_eq (Act.ask_eq hrest)).trans ?_
  exact Act.bind_eq (evalOperands_eq hlist hos hrounds)

end Semantics


end ArenaScheme
