import ArenaScheme.Expansion
import ArenaScheme.Proofs.Copies
import ArenaScheme.Proofs.Frames
import ArenaScheme.Proofs.Runs

/-! Scans for calls of transformers. On corresponding heaps they meet corresponding pairs in the
same order, and so find corresponding calls. A scan meets a new pair before each step down a list,
which is why it ends before its fuel. -/

namespace ArenaScheme

open Memory Heap

/-- Calls that correspond. -/
structure FoundCall.Alike (v : View) (f g : FoundCall) : Prop where
  parent : Option.Rel v.Rel f.parent g.parent
  call : v.Rel f.call g.call

/-- Scans that correspond; neither forgets what was met before. -/
structure ScansAlike (v : View) (met met' : Nat → Bool) (s t : Machine.Scan) : Prop where
  same : SameMet v s.1.contains t.1.contains
  found : Option.Rel (FoundCall.Alike v) s.2 t.2
  left : v.left.unmet s.1.contains ≤ v.left.unmet met
  right : v.right.unmet t.1.contains ≤ v.right.unmet met'

theorem ScansAlike.trans {v : View} {met met' next next' : Nat → Bool} {s t : Machine.Scan}
    (h : ScansAlike v next next' s t) (hleft : v.left.unmet next ≤ v.left.unmet met)
    (hright : v.right.unmet next' ≤ v.right.unmet met') : ScansAlike v met met' s t :=
  ⟨h.same, h.found, Nat.le_trans h.left hleft, Nat.le_trans h.right hright⟩

/-- A pair that was not met is met on both sides. -/
theorem Corr.meet {v : View} (hv : Corr v) {a b : Nat} {met met' : Std.HashSet Ref}
    (hmet : SameMet v met.contains met'.contains) (h : v.Rel a b) (hout : met.contains a = false) :
    SameMet v (met.insert a).contains (met'.insert b).contains ∧
      v.left.unmet (met.insert a).contains < v.left.unmet met.contains ∧
      v.right.unmet (met'.insert b).contains < v.right.unmet met'.contains := by
  have hl : ∀ x, (met.insert a).contains x = (a == x || met.contains x) := fun _ =>
    Std.HashSet.contains_insert
  have hr : ∀ x, (met'.insert b).contains x = (b == x || met'.contains x) := fun _ =>
    Std.HashSet.contains_insert
  exact ⟨hv.sameMet_insert h hmet hl hr, unmet_lt (hv.mem_left h.1) hout hl,
    unmet_lt (hv.mem_right h.1) (hmet a b h ▸ hout) hr⟩

namespace Stands

variable {may : Effect → Prop} {m : Machine} {v : View} {a b : Nat} (out out' : String)

theorem isTransformer (hm : Stands may m v) (h : v.Rel a b) :
    (m.on v.left out).isTransformer a = (m.on v.right out').isTransformer b := by
  have hsymbol : v.right.isSymbol b = v.left.isSymbol a := congrArg (· == .symbol) (hm.kind_eq h)
  simp only [Machine.isTransformer, hsymbol]
  by_cases hk : v.left.memory.kind a = .symbol
  · have hfound := hm.findBinding hm.ordered.aligned hm.rel_transformers hm.transformers.2.2 h
      fun _ => hk
    generalize v.left.findBinding m.transformers a = o at hfound ⊢
    generalize v.right.findBinding m.transformers b = o' at hfound ⊢
    cases hfound with
    | none => rfl
    | some => rfl
  · have hfalse : v.left.isSymbol a = false := beq_false_of_ne hk
    rw [hfalse, Bool.false_and, Bool.false_and]

/-- What a scan of lists must do for the scan of a form that uses it. -/
def SpinesAlike (v : View) (fuel fuel' : Nat)
    (spine spine' : Ref → Std.HashSet Ref → Machine.Scan) : Prop :=
  ∀ {a b : Nat} {met met' : Std.HashSet Ref}, v.Rel a b →
    SameMet v met.contains met'.contains → v.left.unmet met.contains < fuel →
    v.right.unmet met'.contains < fuel' →
    ScansAlike v met.contains met'.contains (spine a met) (spine' b met')

theorem scanForm (hm : Stands may m v) {fuel fuel' : Nat}
    {spine spine' : Ref → Std.HashSet Ref → Machine.Scan}
    (hspine : SpinesAlike v fuel fuel' spine spine') {parent parent' : Option Ref}
    (hparent : Option.Rel v.Rel parent parent') (h : v.Rel a b) {met met' : Std.HashSet Ref}
    (hmet : SameMet v met.contains met'.contains) (hfuel : v.left.unmet met.contains ≤ fuel)
    (hfuel' : v.right.unmet met'.contains ≤ fuel') :
    ScansAlike v met.contains met'.contains ((m.on v.left out).scanForm spine parent a met)
      ((m.on v.right out').scanForm spine' parent' b met') := by
  have hstop : ScansAlike v met.contains met'.contains (met, none) (met', none) :=
    ⟨hmet, .none, Nat.le_refl _, Nat.le_refl _⟩
  have hobject := hm.object h
  unfold Machine.scanForm
  simp only [← hmet a b h]
  generalize v.left.object a = o at hobject ⊢
  generalize v.right.object b = o' at hobject ⊢
  cases hobject with
  | @pair head head' _ _ hhead _ =>
    have hquote : decide (head = (m.on v.left out).keywords.quote) =
        decide (head' = (m.on v.right out').keywords.quote) :=
      decide_eq_decide.mpr (hm.eq_iff hhead (hm.rel_keyword (by simp [Keywords.symbols])))
    simp only [hquote]
    by_cases hgo : (decide (head' = (m.on v.right out').keywords.quote) || met.contains a) = true
    · rw [if_pos hgo, if_pos hgo]
      exact hstop
    · rw [if_neg hgo, if_neg hgo]
      simp only [Bool.or_eq_true, not_or, Bool.not_eq_true] at hgo
      obtain ⟨hsame, hlt, hlt'⟩ := hm.meet hmet h hgo.2
      have hscan := hspine h hsame (by omega) (by omega)
      generalize spine a (met.insert a) = s at hscan ⊢
      generalize spine' b (met'.insert b) = t at hscan ⊢
      obtain ⟨met₁, found⟩ := s
      obtain ⟨met₁', found'⟩ := t
      obtain ⟨hmet₁, hfound, hle, hle'⟩ := hscan
      simp only at hmet₁ hfound hle hle'
      cases hfound with
      | some hfound => exact ⟨hmet₁, .some hfound, by simp only; omega, by simp only; omega⟩
      | none =>
        simp only [hm.isTransformer out out' hhead]
        refine ⟨hmet₁, ?_, by simp only; omega, by simp only; omega⟩
        cases (m.on v.right out').isTransformer head' with
        | true => exact .some ⟨hparent, h⟩
        | false => exact .none
  | _ => exact hstop

theorem scanSpine (hm : Stands may m v) (fuel fuel' : Nat) :
    SpinesAlike v fuel fuel' ((m.on v.left out).scanSpine fuel)
      ((m.on v.right out').scanSpine fuel') := by
  induction fuel generalizing fuel' with
  | zero => exact fun _ _ hfuel => absurd hfuel (Nat.not_lt_zero _)
  | succ fuel ih =>
    intro a b met met' h hmet hfuel hfuel'
    obtain ⟨fuel', rfl⟩ : ∃ n, fuel' = n + 1 := ⟨fuel' - 1, by omega⟩
    have hobject := hm.object h
    unfold Machine.scanSpine
    simp only
    generalize v.left.object a = o at hobject ⊢
    generalize v.right.object b = o' at hobject ⊢
    cases hobject with
    | @pair car car' cdr cdr' hcar hcdr =>
      have hscan := hm.scanForm out out' (ih fuel') (.some h) hcar hmet (by omega) (by omega)
      have hpair : v.right.isPair cdr' = v.left.isPair cdr := congrArg (· == .pair) (hm.kind_eq hcdr)
      simp only [hpair]
      generalize (m.on v.left out).scanForm _ (some a) car met = s at hscan ⊢
      generalize (m.on v.right out').scanForm _ (some b) car' met' = t at hscan ⊢
      obtain ⟨met₁, found⟩ := s
      obtain ⟨met₁', found'⟩ := t
      obtain ⟨hmet₁, hfound, hle, hle'⟩ := hscan
      simp only at hmet₁ hfound hle hle'
      cases hfound with
      | some hfound => exact ⟨hmet₁, .some hfound, hle, hle'⟩
      | none =>
        simp only [← hmet₁ cdr cdr' hcdr]
        by_cases hgo : (!v.left.isPair cdr || met₁.contains cdr) = true
        · rw [if_pos hgo, if_pos hgo]
          exact ⟨hmet₁, .none, hle, hle'⟩
        · rw [if_neg hgo, if_neg hgo]
          simp only [Bool.or_eq_true, not_or, Bool.not_eq_true] at hgo
          obtain ⟨hsame, hlt, hlt'⟩ := hm.meet hmet₁ hcdr hgo.2
          exact (ih fuel' hcdr hsame (by omega) (by omega)).trans (by omega) (by omega)
    | _ => exact ⟨hmet, .none, Nat.le_refl _, Nat.le_refl _⟩

theorem findCall (hm : Stands may m v) (h : v.Rel a b) :
    Option.Rel (FoundCall.Alike v) ((m.on v.left out).findCall a)
      ((m.on v.right out').findCall b) := by
  have hempty : SameMet v (∅ : Std.HashSet Ref).contains (∅ : Std.HashSet Ref).contains :=
    fun _ _ _ => by rw [Std.HashSet.contains_empty, Std.HashSet.contains_empty]
  have hleft : v.left.unmet (∅ : Std.HashSet Ref).contains ≤ v.left.capacity + 1 :=
    Nat.le_trans (unmet_le hm.left) (Nat.le_succ_of_le hm.left.wf.top_le)
  have hright : v.right.unmet (∅ : Std.HashSet Ref).contains ≤ v.right.capacity + 1 :=
    Nat.le_trans (unmet_le hm.right) (Nat.le_succ_of_le hm.right.wf.top_le)
  exact (hm.scanForm out out' (hm.scanSpine out out' _ _) .none h hempty hleft hright).found

end Stands

end ArenaScheme
