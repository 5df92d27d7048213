import ArenaScheme.Primitive.Table
import ArenaScheme.Proofs.Copies
import ArenaScheme.Proofs.Frames
import ArenaScheme.Proofs.Runs
import ArenaScheme.Proofs.Symbols

/-! The primitive procedures run alike on corresponding arguments: each of them looks at the
contents of its arguments, allocates at most once, and uses no argument after that. -/

namespace ArenaScheme

open Memory Heap

variable {may : Effect → Prop}

/-- What is left to do corresponds; a frame to go on in is one. -/
inductive Step.Alike (v : View) : Step → Step → Prop
  | done {a b : Nat} : v.Rel a b → Alike v (.done a) (.done b)
  | tail {a b c d : Nat} : v.Rel a b → v.Rel c d → v.left.memory.kind c = .environment →
    Alike v (.tail a c) (.tail b d)

/-- The parts of an interpreter run alike. Expansions do where updates are allowed and the names of
transformers may be any records; elsewhere this depends on the form. -/
structure CallsAlike (may : Effect → Prop) (m : Machine) (calls : Calls) : Prop where
  evaluate : ∀ {v : View} {a b c d : Nat}, Stands may m v → v.Rel a b → v.Rel c d →
    v.left.memory.kind c = .environment →
    Runs v.left.roots.size m v (Returned v) (calls.evaluate a c) (calls.evaluate b d)
  invoke : ∀ {v : View} {n operator args : Nat}, Stands may m v → n ≤ v.left.roots.size →
    v.Clear operator → operator ≤ args → args ≤ v.left.roots.size →
    Runs n m v Step.Alike (calls.invoke operator args) (calls.invoke operator args)
  expand : ∀ {v : View} {a b : Nat}, may .update → Stands may m v → v.rules.table ≠ none →
    v.Rel a b → Runs v.left.roots.size m v (Returned v) (calls.expand a) (calls.expand b)
  builtin : ∀ {v : View} {n : Nat} {args args' : List Ref} (index : Nat), Stands may m v →
    n ≤ v.left.roots.size → List.Forall₂ v.Rel args args' →
    Runs n m v Step.Alike (calls.builtin index args) (calls.builtin index args')

theorem Corr.rel_boolean {v : View} (hv : Corr v) (value : Bool) :
    v.Rel (Heap.boolean value) (Heap.boolean value) := by
  cases value with
  | true => exact hv.rel_fixture (p := (truth, .truth)) (by decide)
  | false => exact hv.rel_fixture (p := (falsity, .falsity)) (by decide)

namespace Runs

variable {n : Nat} {m : Machine} {v : View} {a b c d : Nat} {γ δ : Type}
  {last : View → γ → δ → Prop}

/-- A new record is a value. -/
theorem made {kind : Kind} {x y : HeapM Ref} (h : Agrees n v (Made v kind) x y) :
    Runs n m v View.Rel (Eval.onHeap x) (Eval.onHeap y) :=
  onHeap (h.mono (Nat.le_refl _) fun _ _ _ _ _ hmade => hmade.rel)

theorem query {question question' : Heap → Except Fault Ref} (hm : Stands may m v)
    (hn : n ≤ v.left.roots.size) (h : Answers v.Rel (question v.left) (question' v.right)) :
    Runs n m v View.Rel (Eval.onHeap (HeapM.query question)) (Eval.onHeap (HeapM.query question')) :=
  onHeap ((Agrees.query hm.toCorr hn h).mono (Nat.le_refl _) fun _ _ _ _ _ ⟨heq, hab⟩ => heq ▸ hab)

theorem done {x y : Eval Ref} (hm : Stands may m v) (h : Runs n m v View.Rel x y) :
    Runs n m v Step.Alike (return .done (← x)) (return .done (← y)) :=
  h.bind hm fun _ _ _ hw hlater hab => pure hw hlater.size (.done hab)

theorem undefined (hm : Stands may m v) (hn : n ≤ v.left.roots.size) :
    Runs n m v View.Rel Eval.undefined Eval.undefined :=
  get_bind fun _ => pure hm hn (hm.rel_keyword (by simp [Keywords.symbols]))

theorem updated {x y : HeapM Unit} (hm : Stands may m v)
    (h : Agrees n v (fun w _ _ => Updated v w) x y) :
    Runs n m v View.Rel (do Eval.onHeap x; Eval.undefined) (do Eval.onHeap y; Eval.undefined) :=
  onHeap_bind hm h fun _ _ _ hw hlater _ => undefined hw hlater.size

theorem emit_bind {f : Unit → Eval γ} {g : Unit → Eval δ} (text : String)
    (h : Runs n m v last (f ()) (g ())) :
    Runs n m v last (Primitive.emit text >>= f) (Primitive.emit text >>= g) :=
  fun out => h (out ++ text)

/-- The same answer from heaps that stay as they are. -/
def Same {α : Type} (v w : View) (x y : α) : Prop := w = v ∧ x = y

section

variable (hm : Stands may m v)
include hm

theorem same_bind {α : Type} {x y : Eval α} {f : α → Eval γ} {g : α → Eval δ}
    (h : Runs n m v (Same v) x y) (hnext : ∀ a, Runs n m v last (f a) (g a)) :
    Runs n m v last (x >>= f) (y >>= g) :=
  h.bind hm fun _ a _ _ _ ⟨hw, hab⟩ => hw ▸ hab ▸ hnext a

theorem number (hn : n ≤ v.left.roots.size) (hab : v.Rel a b) :
    Runs n m v (Same v) (Primitive.number a) (Primitive.number b) := by
  refine object_bind hm hab fun o o' _ halike => ?_
  cases halike with
  | integer | float => exact pure hm hn ⟨rfl, rfl⟩
  | _ =>
    refine get_bind fun out => ?_
    simp only [hm.typeName hab]
    exact throw hm hn rfl

theorem store (hn : n ≤ v.left.roots.size) (value : Number) :
    Runs n m v View.Rel (Primitive.store value) (Primitive.store value) := by
  cases value with
  | integer value => exact made (Agrees.integer hm.toCorr hn value)
  | float bits => exact made (Agrees.float hm.toCorr hn bits)

theorem expect {α : Type} {question question' : Heap → Except Fault α} (hn : n ≤ v.left.roots.size)
    (h : Answers Eq (question v.left) (question' v.right)) :
    Runs n m v (Same v) (Eval.onHeap (HeapM.query question))
      (Eval.onHeap (HeapM.query question')) :=
  onHeap (Agrees.query hm.toCorr hn h)

theorem divisionOperands (hn : n ≤ v.left.roots.size) (hab : v.Rel a b) (hcd : v.Rel c d) :
    Runs n m v (Same v) (Primitive.divisionOperands a c) (Primitive.divisionOperands b d) :=
  same_bind hm (expect hm hn (hm.expectInteger hab)) fun _ =>
    same_bind hm (expect hm hn (hm.expectInteger hcd)) fun _ =>
      ite (fun _ => throw hm hn rfl) fun _ => pure hm hn ⟨rfl, rfl⟩

theorem base (hn : n ≤ v.left.roots.size) (hab : v.Rel a b) :
    Runs n m v (Same v) (Primitive.base a) (Primitive.base b) :=
  same_bind hm (expect hm hn (hm.expectInteger hab)) fun _ =>
    ite (fun _ => pure hm hn ⟨rfl, rfl⟩) fun _ => throw hm hn rfl

theorem newLength (hn : n ≤ v.left.roots.size) (hab : v.Rel a b) :
    Runs n m v (Same v) (Primitive.newLength a) (Primitive.newLength b) :=
  same_bind hm (expect hm hn (hm.expectInteger hab)) fun _ =>
    ite (fun _ => pure hm hn ⟨rfl, rfl⟩) fun _ => throw hm hn rfl

theorem integerToChar (hn : n ≤ v.left.roots.size) (hab : v.Rel a b) :
    Runs n m v View.Rel (Primitive.integerToChar a) (Primitive.integerToChar b) :=
  same_bind hm (expect hm hn (hm.expectInteger hab)) fun _ =>
    ite (fun _ => made (Agrees.character hm.toCorr hn _)) fun _ => throw hm hn rfl

theorem tagParts (hn : n ≤ v.left.roots.size) (hab : v.Rel a b) :
    Runs n m v (fun w p q => w.Rel p.1 q.1 ∧ w.Rel p.2 q.2) (Primitive.tagParts a)
      (Primitive.tagParts b) := by
  refine object_bind hm hab fun o o' _ halike => ?_
  cases halike with
  | tagged hmarker hvalue => exact pure hm hn ⟨hmarker, hvalue⟩
  | _ =>
    refine get_bind fun out => ?_
    simp only [hm.typeName hab]
    exact throw hm hn rfl

theorem identical (hn : n ≤ v.left.roots.size) (hab : v.Rel a b) (hcd : v.Rel c d) :
    Runs n m v View.Rel (return Heap.boolean (a == c)) (return Heap.boolean (b == d)) := by
  have heq : (a == c) = (b == d) := by
    rw [Bool.eq_iff_iff, beq_iff_eq, beq_iff_eq]
    exact hm.eq_iff hab hcd
  rw [heq]
  exact pure hm hn (hm.rel_boolean _)

theorem typeSymbol (hn : n ≤ v.left.roots.size) (hab : v.Rel a b) :
    Runs n m v View.Rel (do HeapM.intern ((← get).heap.typeName a))
      (do HeapM.intern ((← get).heap.typeName b)) := by
  refine get_bind fun out => ?_
  simp only [hm.typeName hab]
  exact made (Agrees.internWith hm.toCorr hn _ _ (hm.may _ (.inl trivial)))

theorem display (hn : n ≤ v.left.roots.size) (hab : v.Rel a b) :
    Runs n m v View.Rel (do Primitive.emit ((← get).heap.display a); Eval.undefined)
      (do Primitive.emit ((← get).heap.display b); Eval.undefined) := by
  refine get_bind fun out => ?_
  simp only [Heap.display, hm.text .display hab]
  exact emit_bind _ (undefined hm hn)

end

end Runs

section Calls

variable {m : Machine} {calls : Calls} {n : Nat} {v : View} {a b c d : Nat}

theorem Runs.pushElements (hm : Stands may m v) (hn : n ≤ v.left.roots.size) (count : Nat)
    (hlist : v.Rel a b) :
    Runs n m v (fun _ _ _ => True) (ArenaScheme.pushElements count a)
      (ArenaScheme.pushElements count b) := by
  induction count generalizing v a b with
  | zero => exact .pure hm hn trivial
  | succ count ih =>
    refine .query_bind hm hn (hm.car hlist) fun x y hxy => ?_
    refine .pushRoot_bind hm hn hxy fun w hw hpushed => ?_
    have hn' : n ≤ w.left.roots.size := by
      rw [hpushed.size]
      omega
    exact .query_bind hw hn' (hw.cdr (hpushed.rel _ _ hlist)) fun _ _ hrest => ih hw hn' hrest

theorem Runs.applyStep (hcalls : CallsAlike may m calls) (hm : Stands may m v)
    (hn : n ≤ v.left.roots.size) (hprocedure : v.Rel a b) (hlist : v.Rel c d) :
    Runs n m v Step.Alike (ArenaScheme.applyStep calls a c) (ArenaScheme.applyStep calls b d) := by
  refine .query_bind hm hn (hm.listLength hlist) fun length _ ⟨heq, _⟩ => ?_
  subst heq
  refine .pushRoot_bind hm hn hprocedure fun w hw hpushed => ?_
  have hn' : n ≤ w.left.roots.size := by
    rw [hpushed.size]
    omega
  refine .rootCount_bind hw hn' ?_
  have helements := Runs.pushElements hw (Nat.le_refl _) length (hpushed.rel _ _ hlist)
  refine helements.bind_of_le hw hn' fun u _ _ hu hlater _ => ?_
  refine hcalls.invoke hu (Nat.le_trans hn' hlater.size) ((hpushed.clear hm.clear).later hlater) ?_
    hlater.size
  rw [hpushed.size]
  exact Nat.le_succ _

theorem Runs.apply (hcalls : CallsAlike may m calls) (hm : Stands may m v) (hprocedure : v.Rel a b)
    (hlist : v.Rel c d) :
    Runs v.left.roots.size m v (Returned v) (ArenaScheme.apply calls a c)
      (ArenaScheme.apply calls b d) := by
  refine .keepingRoots hm ?_
  refine (Runs.applyStep hcalls hm (Nat.le_refl _) hprocedure hlist).bind hm
    fun w step step' hw hlater halike => ?_
  cases halike with
  | done hrel => exact .pure hw hlater.size hrel
  | tail hform henv hk =>
    exact (hcalls.evaluate hw hform henv hk).mono hw hlater.size fun _ _ _ _ _ hret => hret.1

end Calls

/-- A primitive that runs alike on corresponding arguments. -/
def Primitive.RunsAlike (may : Effect → Prop) (m : Machine) (calls : Calls) (p : Primitive) : Prop :=
  ∀ (n : Nat) (v : View) (args args' : List Ref), Stands may m v → n ≤ v.left.roots.size →
    List.Forall₂ v.Rel args args' → Runs n m v Step.Alike (p.run calls args) (p.run calls args')

namespace Primitive

variable {m : Machine} {calls : Calls} {name : String}

theorem runs_wrongCount {n : Nat} {v : View} {args args' : List Ref} (arity : Nat) (hm : Stands may m v)
    (hn : n ≤ v.left.roots.size) (hargs : List.Forall₂ v.Rel args args') :
    Runs n m v Step.Alike (Eval.fail (.wrongArgumentCount arity args.length))
      (Eval.fail (.wrongArgumentCount arity args'.length)) := by
  rw [hargs.length_eq]
  exact .throw hm hn rfl

theorem runsAlike_nullary {f : Eval Ref}
    (h : ∀ {n v}, Stands may m v → n ≤ v.left.roots.size → Runs n m v View.Rel f f) :
    RunsAlike may m calls (nullary name f) := by
  intro n v args args' hm hn hargs
  match hargs with
  | .nil => exact .done hm (h hm hn)
  | hargs@(.cons _ _) => exact runs_wrongCount 0 hm hn hargs

theorem runsAlike_unary {f : Ref → Eval Ref}
    (h : ∀ {n v a b}, Stands may m v → n ≤ v.left.roots.size → v.Rel a b →
      Runs n m v View.Rel (f a) (f b)) : RunsAlike may m calls (unary name f) := by
  intro n v args args' hm hn hargs
  match hargs with
  | .cons ha .nil => exact .done hm (h hm hn ha)
  | hargs@(.nil) => exact runs_wrongCount 1 hm hn hargs
  | hargs@(.cons _ (.cons _ _)) => exact runs_wrongCount 1 hm hn hargs

theorem runsAlike_binary {f : Ref → Ref → Eval Ref}
    (h : ∀ {n v a b c d}, Stands may m v → n ≤ v.left.roots.size → v.Rel a b → v.Rel c d →
      Runs n m v View.Rel (f a c) (f b d)) : RunsAlike may m calls (binary name f) := by
  intro n v args args' hm hn hargs
  match hargs with
  | .cons ha (.cons hc .nil) => exact .done hm (h hm hn ha hc)
  | hargs@(.nil) => exact runs_wrongCount 2 hm hn hargs
  | hargs@(.cons _ .nil) => exact runs_wrongCount 2 hm hn hargs
  | hargs@(.cons _ (.cons _ (.cons _ _))) => exact runs_wrongCount 2 hm hn hargs

theorem runsAlike_ternary {f : Ref → Ref → Ref → Eval Ref}
    (h : ∀ {n v a b c d t u}, Stands may m v → n ≤ v.left.roots.size → v.Rel a b → v.Rel c d →
      v.Rel t u → Runs n m v View.Rel (f a c t) (f b d u)) : RunsAlike may m calls (ternary name f) := by
  intro n v args args' hm hn hargs
  match hargs with
  | .cons ha (.cons hc (.cons ht .nil)) => exact .done hm (h hm hn ha hc ht)
  | hargs@(.nil) => exact runs_wrongCount 3 hm hn hargs
  | hargs@(.cons _ .nil) => exact runs_wrongCount 3 hm hn hargs
  | hargs@(.cons _ (.cons _ .nil)) => exact runs_wrongCount 3 hm hn hargs
  | hargs@(.cons _ (.cons _ (.cons _ (.cons _ _)))) => exact runs_wrongCount 3 hm hn hargs

theorem runsAlike_predicate {holds : Object → Bool}
    (h : ∀ {v : View} {o o' : Object}, o.Alike v.Rel o' → holds o = holds o') :
    RunsAlike may m calls (predicate name holds) :=
  runsAlike_unary fun hm hn hab => .object_bind hm hab fun _ _ _ halike => by
    rw [h halike]
    exact .pure hm hn (hm.rel_boolean _)

theorem runsAlike_arithmetic (exact : Int → Int → Int) (inexact : Float → Float → Float) :
    RunsAlike may m calls (arithmetic name exact inexact) :=
  runsAlike_binary fun hm hn ha hb => .same_bind hm (.number hm hn ha) fun _ =>
    .same_bind hm (.number hm hn hb) fun _ => .store hm hn _

theorem runsAlike_comparison (holds : Ordering → Bool) :
    RunsAlike may m calls (comparison name holds) :=
  runsAlike_binary fun hm hn ha hb => .same_bind hm (.number hm hn ha) fun _ =>
    .same_bind hm (.number hm hn hb) fun _ => .pure hm hn (hm.rel_boolean _)

theorem runsAlike_divide : RunsAlike may m calls divide :=
  runsAlike_binary fun hm hn ha hb => .same_bind hm (.number hm hn ha) fun _ =>
    .same_bind hm (.number hm hn hb) fun _ => .ite (fun _ => .throw hm hn rfl) fun _ => .store hm hn _

theorem runsAlike_quotient : RunsAlike may m calls quotient :=
  runsAlike_binary fun hm hn ha hb => .same_bind hm (.divisionOperands hm hn ha hb) fun _ =>
    .store hm hn _

theorem runsAlike_remainder : RunsAlike may m calls remainder :=
  runsAlike_binary fun hm hn ha hb => .same_bind hm (.divisionOperands hm hn ha hb) fun _ =>
    .store hm hn _

theorem runsAlike_exactToInexact : RunsAlike may m calls exactToInexact :=
  runsAlike_unary fun hm hn ha => .same_bind hm (.number hm hn ha) fun value => by
    cases value <;> exact .store hm hn _

theorem runsAlike_inexactToExact : RunsAlike may m calls inexactToExact :=
  runsAlike_unary fun hm hn ha => .same_bind hm (.number hm hn ha) fun value => by
    cases value with
    | integer => exact .pure hm hn ha
    | float bits =>
      simp only
      cases Binary64.truncate bits with
      | some value => exact .store hm hn _
      | none => exact .throw hm hn rfl

theorem runsAlike_stringToNumber : RunsAlike may m calls stringToNumber :=
  runsAlike_binary fun hm hn ha hb => .same_bind hm (.expect hm hn (hm.stringValue ha)) fun text =>
    .same_bind hm (.base hm hn hb) fun b => by
      simp only
      generalize (if b = 10 then Number.parse? text.toList
        else (Number.integerIn? b text.toList).map .integer) = parsed
      cases parsed with
      | some value => exact .store hm hn _
      | none => exact .pure hm hn (hm.rel_boolean false)

theorem runsAlike_numberToString : RunsAlike may m calls numberToString :=
  runsAlike_binary fun hm hn ha hb => .same_bind hm (.number hm hn ha) fun value =>
    .same_bind hm (.base hm hn hb) fun b => by
      cases value with
      | integer => exact .made (Agrees.string hm.toCorr hn _)
      | float =>
        exact .ite (fun _ => .made (Agrees.string hm.toCorr hn _)) fun _ => .throw hm hn rfl

theorem runsAlike_applyList (hcalls : CallsAlike may m calls) : RunsAlike may m calls applyList := by
  intro n v args args' hm hn hargs
  match hargs with
  | .cons hprocedure (.cons hlist .nil) => exact .applyStep hcalls hm hn hprocedure hlist
  | hargs@(.nil) => exact runs_wrongCount 2 hm hn hargs
  | hargs@(.cons _ .nil) => exact runs_wrongCount 2 hm hn hargs
  | hargs@(.cons _ (.cons _ (.cons _ _))) => exact runs_wrongCount 2 hm hn hargs

/-- The primitives that change data. -/
def overwrites (p : Primitive) : Bool :=
  ["set-car!", "set-cdr!", "string-set!", "vector-set!"].contains p.name

theorem runsAlike_of_mem (hcalls : CallsAlike may m calls) :
    ∀ p ∈ Primitive.all, (p.overwrites → may .update) → RunsAlike may m calls p := by
  simp only [Primitive.all, List.forall_mem_cons]
  refine ⟨
    fun _ => runsAlike_unary fun hm hn ha => .query hm hn (hm.car ha),
    fun _ => runsAlike_unary fun hm hn ha => .query hm hn (hm.cdr ha),
    fun _ => runsAlike_binary fun hm hn ha hb => .made (Agrees.cons hm.toCorr hn ha hb),
    fun hu => runsAlike_binary fun hm hn ha hb =>
      .updated hm (Agrees.setCar hm.toCorr hn (hm.may _ (.inr (hu rfl))) ha hb),
    fun hu => runsAlike_binary fun hm hn ha hb =>
      .updated hm (Agrees.setCdr hm.toCorr hn (hm.may _ (.inr (hu rfl))) ha hb),
    fun _ => runsAlike_binary fun hm hn ha hb => .identical hm hn ha hb,
    fun _ => runsAlike_applyList hcalls,
    fun _ => runsAlike_arithmetic _ _,
    fun _ => runsAlike_arithmetic _ _,
    fun _ => runsAlike_arithmetic _ _,
    fun _ => runsAlike_divide,
    fun _ => runsAlike_quotient,
    fun _ => runsAlike_remainder,
    fun _ => runsAlike_comparison _,
    fun _ => runsAlike_comparison _,
    fun _ => runsAlike_exactToInexact,
    fun _ => runsAlike_inexactToExact,
    fun _ => runsAlike_predicate ?_, fun _ => runsAlike_predicate ?_, fun _ => runsAlike_predicate ?_,
    fun _ => runsAlike_predicate ?_, fun _ => runsAlike_predicate ?_, fun _ => runsAlike_predicate ?_,
    fun _ => runsAlike_predicate ?_, fun _ => runsAlike_predicate ?_, fun _ => runsAlike_predicate ?_,
    fun _ => runsAlike_predicate ?_, fun _ => runsAlike_predicate ?_, fun _ => runsAlike_predicate ?_,
    fun _ => runsAlike_unary fun hm hn ha => .typeSymbol hm hn ha,
    fun _ => runsAlike_unary fun hm hn ha => .integerToChar hm hn ha,
    fun _ => runsAlike_unary fun hm hn ha => .same_bind hm (.expect hm hn (hm.expectChar ha)) fun _ =>
      .made (Agrees.integer hm.toCorr hn _),
    fun _ => runsAlike_unary fun hm hn ha =>
      .same_bind hm (.expect hm hn ((hm.stringLength ha).mono fun _ _ => And.left)) fun _ =>
        .made (Agrees.integer hm.toCorr hn _),
    fun _ => runsAlike_binary fun hm hn ha hb =>
      .same_bind hm (.expect hm hn (hm.expectInteger hb)) fun index =>
        .same_bind hm (.expect hm hn (hm.stringRef ha index)) fun _ =>
          .made (Agrees.character hm.toCorr hn _),
    fun hu => runsAlike_ternary fun hm hn ha hb hc =>
      .same_bind hm (.expect hm hn (hm.expectInteger hb)) fun index =>
        .same_bind hm (.expect hm hn (hm.expectChar hc)) fun c =>
          .updated hm (Agrees.stringSet hm.toCorr hn (hm.may _ (.inr (hu rfl))) ha index c),
    fun _ => runsAlike_unary fun hm hn ha => .same_bind hm (.newLength hm hn ha) fun _ =>
      .made (Agrees.makeString hm.toCorr hn _ _),
    fun _ => runsAlike_unary fun hm hn ha => .same_bind hm (.expect hm hn (hm.stringValue ha)) fun _ =>
      .made (Agrees.internWith hm.toCorr hn _ _ (hm.may _ (.inl trivial))),
    fun _ => runsAlike_unary fun hm hn ha =>
      .same_bind hm (.expect hm hn ((hm.symbolName ha).mono fun _ _ => And.left)) fun _ =>
        .made (Agrees.string hm.toCorr hn _),
    fun _ => runsAlike_stringToNumber,
    fun _ => runsAlike_numberToString,
    fun _ => runsAlike_unary fun hm hn ha =>
      .same_bind hm (.expect hm hn ((hm.vectorLength ha).mono fun _ _ => And.left)) fun _ =>
        .made (Agrees.integer hm.toCorr hn _),
    fun _ => runsAlike_binary fun hm hn ha hb =>
      .same_bind hm (.expect hm hn (hm.expectInteger hb)) fun index =>
        .query hm hn (hm.vectorRef ha index),
    fun hu => runsAlike_ternary fun hm hn ha hb hc =>
      .same_bind hm (.expect hm hn (hm.expectInteger hb)) fun index =>
        .updated hm (Agrees.vectorSet hm.toCorr hn (hm.may _ (.inr (hu rfl))) ha index hc),
    fun _ => runsAlike_unary fun hm hn ha => .same_bind hm (.newLength hm hn ha) fun _ =>
      (Runs.undefined hm hn).bind hm fun _ _ _ hw hlater hfill =>
        .made (Agrees.makeVector hw.toCorr hlater.size _ hfill),
    fun _ => runsAlike_binary fun hm hn ha hb => .made (Agrees.tagged hm.toCorr hn ha hb),
    fun _ => runsAlike_unary fun hm hn ha => (Runs.tagParts hm hn ha).bind hm fun _ _ _ hw hlater hparts =>
      .pure hw hlater.size hparts.2,
    fun _ => runsAlike_unary fun hm hn ha => (Runs.tagParts hm hn ha).bind hm fun _ _ _ hw hlater hparts =>
      .pure hw hlater.size hparts.1,
    fun _ => runsAlike_nullary fun hm hn => .get_bind fun _ => .pure hm hn hm.rel_globals,
    fun _ => runsAlike_unary fun hm hn ha => .same_bind hm (.expect hm hn (hm.stringValue ha)) fun text =>
      .emit_bind text (.undefined hm hn),
    fun _ => runsAlike_unary fun hm hn ha => .display hm hn ha,
    fun _ => runsAlike_unary fun hm hn ha => .same_bind hm (.expect hm hn (hm.expectInteger ha)) fun _ =>
      .throw hm hn rfl,
    fun _ h => absurd h List.not_mem_nil⟩
  -- What is left: the questions about kinds.
  all_goals exact fun h => by cases h <;> rfl

end Primitive

end ArenaScheme
