import ArenaScheme.Proofs.Copies
import ArenaScheme.Proofs.Expansion
import ArenaScheme.Proofs.Reading
import ArenaScheme.Proofs.StartUp

/-! Sessions do not depend on collections. Two machines that are given the same texts answer alike,
whatever the sizes of their heaps and wherever a host lets one of them collect. -/

namespace ArenaScheme

open Memory Heap

namespace Runs

variable {may : Effect → Prop} {m : Machine} {v : View} {n : Nat} {table : Procedures}

/-- From wherever the roots stand, the next datum is read alike. -/
theorem read (hm : Stands may m v) (hfree : v.guard = none) (failAtEnd : Bool) (tokens : List Token) :
    Runs v.left.roots.size m v (Reads.Given tokens) (Session.read failAtEnd tokens)
      (Session.read failAtEnd tokens) := by
  refine get_bind fun out => onHeap ?_
  have hreads : Reads m.keywords v.left.roots.size v :=
    ⟨hm.toCorr, hfree, fun _ => hm.may _ (.inl trivial), hm.keywords,
      fun i hlo hhi => absurd hhi (Nat.not_lt_of_le hlo)⟩
  exact hreads.readFrom (.nil (Nat.le_refl _)) failAtEnd tokens

/-- Slot `last` takes the value of one form after the other. -/
theorem evalTokens (htable : table.Alike may fun _ => True) (hmay : may .update) (fuel : Nat)
    {last rounds : Nat} {tokens : List Token} (hm : Stands may m v)
    (htokens : ∀ token ∈ tokens, token.Sensible) (hfree : v.guard = none)
    (hn : n ≤ v.left.roots.size) (hlast : n ≤ last) :
    Runs n m v View.Rel (Session.evalTokens (interpreterWith table fuel) last rounds tokens)
      (Session.evalTokens (interpreterWith table fuel) last rounds tokens) := by
  have hclear : ∀ {w : View}, w.guard = none → w.guard ≠ some last := fun hw heq => by
    rw [hw] at heq
    cases heq
  induction rounds generalizing v tokens with
  | zero => exact root hm hn (hclear hfree)
  | succ rounds ih =>
    refine (read hm hfree false tokens).bind_of_le hm hn fun w p q hw hlater hgiven => ?_
    have hwfree := hlater.guard.trans hfree
    have hwn := Nat.le_trans hn hlater.size
    cases hgiven with
    | @fault cause rest hcause =>
      exact throw hw hwn (hcause.elim id fun h => Fault.not_isCorrupt (htokens _ h))
    | value hread hrest =>
      have heof := hw.rel_fixture (p := (eof, .eof)) (by decide)
      refine ite_iff (hw.eq_iff hread.rel heof) (fun _ => root hw hwn (hclear hwfree)) fun _ => ?_
      refine (evalForm htable hmay fuel hw hwfree hread.rel fun _ ⟨_, ho⟩ =>
        hread.solitary (kind_of_pair ho).1).bind_of_le hw hwn ?_
      rintro u x y hu hlater' ⟨hxy, -⟩
      have hufree := hlater'.guard.trans hwfree
      refine setRoot_bind hu (Nat.le_trans hwn hlater'.size) hlast (hclear hufree) hxy
        fun z hz hset => ?_
      exact ih hz (fun token ht => htokens token (hrest ht)) (hset.guard.trans hufree)
        (by rw [hset.size]; exact Nat.le_trans hwn hlater'.size)

theorem evalText (htable : table.Alike may fun _ => True) (hmay : may .update) (fuel : Nat)
    (hm : Stands may m v) (hfree : v.guard = none) (text : String) :
    Runs v.left.roots.size m v (Returned v) (Session.evalTextWith (interpreterWith table fuel) text)
      (Session.evalTextWith (interpreterWith table fuel) text) := by
  refine keepingRoots hm (pushRoot_bind hm (Nat.le_refl _) hm.rel_null fun w hw hp => ?_)
  exact evalTokens htable hmay fuel hw (Token.sensible_scanFrom _ _) (hp.guard.trans hfree)
    (by rw [hp.size]; exact Nat.le_succ _) (Nat.le_refl _)

end Runs

namespace Session

/-- What a host may ask of a machine. -/
inductive Request where
  | text (source : String)
  | collect
  deriving DecidableEq

/-- Everything that a value shows of itself. -/
structure Shown where
  display : String
  write : String
  datum : Except Fault Datum

/-- What a host gets for a text. -/
structure Reply where
  outcome : Except Stop Shown
  output : String

def Shown.of (h : Heap) (value : Ref) : Shown := ⟨h.display value, h.write value, h.datum value⟩

/-- Evaluates a text. What it has displayed is handed out with the reply. -/
def answer (fuel : Nat) (source : String) (m : Machine) : Reply × Machine :=
  match evalTextWith (interpreter fuel) source m with
  | .ok value m => (⟨.ok (.of m.heap value), m.output⟩, { m with output := "" })
  | .error stop m => (⟨.error stop, m.output⟩, { m with output := "" })

def replies (fuel : Nat) : Machine → List Request → List Reply
  | _, [] => []
  | m, .text source :: requests =>
    (answer fuel source m).1 :: replies fuel (answer fuel source m).2 requests
  | m, .collect :: requests =>
    replies fuel { m with heap := m.heap.after HeapM.collect } requests

/-- The texts among requests. -/
def texts (requests : List Request) : List String :=
  requests.filterMap fun
    | .text source => some source
    | .collect => none

/-- All that a session shows: a machine with a heap of the given size starts, loads the base library
if it is asked to, and answers. -/
def transcript (fuel : Nat) (size : UInt32) (library : Bool) (requests : List Request) :
    Except Fault (List Reply) :=
  (Machine.start size.toNat).map fun m =>
    replies fuel m ((if library then [.text Bootstrap.source] else []) ++ requests)

/-- The machines of two sessions that run side by side, between two texts. -/
structure Paired (m : Machine) (v : View) : Prop extends Stands Effect.Tame m v where
  free : v.guard = none
  table : v.rules.table = none

section

variable {m : Machine} {v w : View} {n : Nat}

theorem Paired.later (hm : Paired m v) (hw : Corr w) (h : Later n v w) : Paired m w :=
  ⟨hm.toStands.later hw h, h.guard.trans hm.free, by rw [h.rules]; exact hm.table⟩

theorem Shown.of_eq {a b : Nat} (hv : Corr v) (hab : v.Rel a b) :
    Shown.of v.left a = Shown.of v.right b := by
  have hdatum : v.left.datum a = v.right.datum b := by
    have hanswers := hv.datum hab
    generalize v.left.datum a = x at hanswers ⊢
    generalize v.right.datum b = y at hanswers ⊢
    cases hanswers with
    | ok heq => rw [heq]
    | error fault => rfl
  unfold Shown.of Heap.display Heap.write
  rw [hv.text .display hab, hv.text .write hab, hdatum]

theorem answer_alike (fuel : Nat) (hm : Paired m v) (source : String) :
    ∃ reply w, Paired m w ∧
      answer fuel source (m.on v.left "") = (reply, m.on w.left "") ∧
      answer fuel source (m.on v.right "") = (reply, m.on w.right "") := by
  have hrun := Runs.evalText (alike_builtins trivial) trivial fuel hm.toStands hm.free source ""
  unfold answer
  generalize evalTextWith (interpreter fuel) source (m.on v.left "") = x at hrun ⊢
  generalize evalTextWith (interpreter fuel) source (m.on v.right "") = y at hrun ⊢
  cases hrun with
  | @ok w out a b hw hlater hreturned =>
    refine ⟨⟨.ok (.of w.left a), out⟩, w, hm.later hw hlater, rfl, ?_⟩
    rw [Shown.of_eq hw hreturned.1]
  | error w out stop hw hlater =>
    exact ⟨⟨.error stop, out⟩, w, hm.later hw hlater, rfl, rfl⟩

/-- The left machine may collect when the right one does not. -/
theorem collect_left (hm : Paired m v) :
    ∃ w, Paired m w ∧ w.left = v.left.after HeapM.collect ∧ w.right = v.right := by
  obtain ⟨g, place, hrun, hr, -⟩ := HeapM.exists_collected hm.left.wf
  refine ⟨v.moveLeft _ place g,
    hm.later (hm.moveLeft hr) (hm.later_moveLeft hm.table hr (Nat.zero_le _)), ?_, rfl⟩
  unfold Heap.after
  rw [hrun]
  rfl

theorem collect_right (hm : Paired m v) :
    ∃ w, Paired m w ∧ w.left = v.left ∧ w.right = v.right.after HeapM.collect := by
  obtain ⟨g, place, hrun, hr, -⟩ := HeapM.exists_collected hm.right.wf
  refine ⟨v.moveRight _ place g, hm.later (hm.moveRight hr)
    (hm.later_moveRight hm.table _ place g (Nat.zero_le _)), rfl, ?_⟩
  unfold Heap.after
  rw [hrun]
  rfl

theorem replies_of_texts_nil {requests : List Request} (h : texts requests = []) (fuel : Nat)
    (m : Machine) : replies fuel m requests = [] := by
  induction requests generalizing m with
  | nil => rfl
  | cons request requests ih =>
    cases request with
    | text source => cases h
    | collect => exact ih h _

/-- Whichever machine collects first, both come to the next text. -/
theorem replies_alike (fuel : Nat) {requests requests' : List Request} (hm : Paired m v)
    (htexts : texts requests = texts requests') :
    replies fuel (m.on v.left "") requests = replies fuel (m.on v.right "") requests' := by
  induction requests generalizing v requests' with
  | nil => rw [replies_of_texts_nil htexts.symm, replies_of_texts_nil rfl]
  | cons request requests ih =>
    cases request with
    | collect =>
      obtain ⟨w, hw, hleft, hright⟩ := collect_left hm
      have hrest := ih hw htexts
      rw [hleft, hright] at hrest
      exact hrest
    | text source =>
      induction requests' generalizing v with
      | nil => cases htexts
      | cons request' requests' ih' =>
        cases request' with
        | collect =>
          obtain ⟨w, hw, hleft, hright⟩ := collect_right hm
          have hrest := ih' hw htexts
          rw [hleft, hright] at hrest
          exact hrest
        | text source' =>
          obtain ⟨rfl, hrest⟩ : source = source' ∧ texts requests = texts requests' :=
            List.cons.inj htexts
          obtain ⟨reply, w, hw, hleft, hright⟩ := answer_alike fuel hm source
          unfold replies
          rw [hleft, hright]
          exact congrArg _ (ih hw hrest)

end

/-- A session shows the same for every size of the heap, with collections anywhere between its
texts. -/
theorem transcript_independent (fuel : Nat) (size size' : UInt32) (library : Bool)
    {requests requests' : List Request} (htexts : texts requests = texts requests') :
    transcript fuel size library requests = transcript fuel size' library requests' := by
  have hle : ∀ n : UInt32, n.toNat ≤ maxSize := fun n => Nat.le_of_lt_succ n.toNat_lt
  have hall : texts ((if library then [.text Bootstrap.source] else []) ++ requests) =
      texts ((if library then [.text Bootstrap.source] else []) ++ requests') := by
    unfold texts at htexts ⊢
    rw [List.filterMap_append, List.filterMap_append, htexts]
  unfold transcript
  obtain ⟨m, v, hm, hfree, hrules, -, hstart, hstart'⟩ :=
    Machine.start_alike (hle size) (hle size')
  rw [hstart, hstart']
  exact congrArg Except.ok (replies_alike fuel ⟨hm, hfree, congrArg Rules.table hrules⟩ hall)

/-- A small heap that collects between two texts, beside a large one that does not. -/
theorem transcript_with_collection :
    texts [.text "(define x (list 1 2))", .collect, .text "x"] =
      texts [.text "(define x (list 1 2))", .text "x"] ∧
    transcript 1000 0 true [.text "(define x (list 1 2))", .collect, .text "x"] =
      transcript 1000 1048576 true [.text "(define x (list 1 2))", .text "x"] :=
  ⟨rfl, transcript_independent 1000 0 1048576 true rfl⟩

end Session

end ArenaScheme
