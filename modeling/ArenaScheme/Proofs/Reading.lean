import ArenaScheme.Reader
import ArenaScheme.Proofs.Ownership
import ArenaScheme.Proofs.Runs

/-! Reading runs alike. The forms that are still open are the same on both sides, since they name
slots and pinned symbols only. A pair that was read can be reached from nowhere else, whatever the
text holds: that is what lets a definition of a transformer be guarded while its body is
expanded. -/

namespace ArenaScheme

open Memory Heap

/-- The faults of a text. -/
def Fault.isSyntax : Fault → Bool
  | unexpectedEnd | unexpectedDelimiter _ | invalidDottedList | dotInVector | unknownCharName _ =>
    true
  | _ => false

theorem Fault.not_isCorrupt {fault : Fault} (h : fault.isSyntax = true) : fault.isCorrupt = false := by
  cases fault <;> first | rfl | cases h

namespace Token

/-- The faults among tokens are faults of texts. -/
def Sensible : Token → Prop
  | .fault cause => cause.isSyntax = true
  | _ => True

theorem sensible_ofWord (word : List Char) : (ofWord word).Sensible := by
  unfold ofWord
  split
  · trivial
  · split
    · trivial
    · split <;> trivial

theorem sensible_ofCharName (name : List Char) : (ofCharName name).Sensible := by
  unfold ofCharName
  split
  · trivial
  · split <;> trivial

theorem sensible_afterWord (c : Char) : ∀ token ∈ afterWord c, token.Sensible := by
  unfold afterWord
  split <;> simp [Sensible]

theorem sensible_step (mode : Mode) (c : Char) : ∀ token ∈ (step mode c).1, token.Sensible := by
  have hword : ∀ token rest, token.Sensible → (∀ t ∈ rest, Sensible t) →
      ∀ t ∈ token :: rest, Sensible t := fun _ _ h hrest => List.forall_mem_cons.mpr ⟨h, hrest⟩
  unfold step
  repeat' split
  all_goals
    first
    | exact hword _ _ (sensible_ofWord _) (sensible_afterWord c)
    | exact hword _ _ (sensible_ofCharName _) (sensible_afterWord c)
    | simp [Sensible]

theorem sensible_atEnd (mode : Mode) : ∀ token ∈ atEnd mode, token.Sensible := by
  intro token ht
  cases mode with
  | between | comment => cases ht
  | word _ =>
    obtain rfl := List.mem_singleton.mp ht
    exact sensible_ofWord _
  | charName _ =>
    obtain rfl := List.mem_singleton.mp ht
    exact sensible_ofCharName _
  | string _ | escape _ | hash | charStart =>
    obtain rfl := List.mem_singleton.mp ht
    rfl

theorem sensible_scanFrom (mode : Mode) (text : List Char) :
    ∀ token ∈ scanFrom mode text, token.Sensible := by
  induction text generalizing mode with
  | nil => exact sensible_atEnd mode
  | cons c text ih =>
    have hstep := sensible_step mode c
    unfold scanFrom
    split
    · exact ih _
    · rename_i heq
      rw [heq] at hstep
      exact List.forall_mem_append.mpr ⟨hstep, ih _⟩

end Token

/-- Forms that are open while there are `count` roots; the first `n` roots are not theirs. -/
inductive Pending (keywords : Keywords) (n : Nat) : Nat → List OpenForm → Prop
  | nil {count : Nat} : n ≤ count → Pending keywords n count []
  | quoted {count head : Nat} {outer : List OpenForm} : head ∈ keywords.symbols →
    Pending keywords n count outer → Pending keywords n count (.quoted head :: outer)
  | list {count base : Nat} {outer : List OpenForm} : base ≤ count →
    Pending keywords n base outer → Pending keywords n count (.list base :: outer)
  | dotted {count base : Nat} {outer : List OpenForm} : base < count →
    Pending keywords n base outer → Pending keywords n count (.dotted base :: outer)
  | tailed {count base slot : Nat} {outer : List OpenForm} : base < slot → slot < count →
    Pending keywords n base outer → Pending keywords n count (.tailed base slot :: outer)
  | vector {count base : Nat} {outer : List OpenForm} : base ≤ count →
    Pending keywords n base outer → Pending keywords n count (.vector base :: outer)

theorem Pending.low {keywords : Keywords} {n count : Nat} {pending : List OpenForm}
    (h : Pending keywords n count pending) : n ≤ count := by
  induction h with
  | nil h => exact h
  | quoted _ _ ih => exact ih
  | list hbase _ ih | vector hbase _ ih => exact Nat.le_trans ih hbase
  | dotted hbase _ ih => exact Nat.le_trans ih (Nat.le_of_lt hbase)
  | tailed hbase hslot _ ih =>
    exact Nat.le_trans ih (Nat.le_of_lt (Nat.lt_trans hbase hslot))

/-- Data is being read; the roots from `n` on belong to the reader. -/
structure Reads (keywords : Keywords) (n : Nat) (v : View) : Prop extends Corr v where
  free : v.guard = none
  may : ∀ name, v.may (.intern name)
  symbols : ∀ r ∈ keywords.symbols, v.left.Permanent .symbol r
  loose : v.left.Loose n v.left.roots.size

/-- Values that were just read. -/
structure Read (w : View) (a b : Nat) : Prop where
  rel : w.Rel a b
  solitary : w.left.memory.kind a = .pair → Solitary w.left a

theorem Read.alone {w : View} {a b : Nat} (h : Read w a b) : w.left.Alone a := fun hpair =>
  (h.solitary hpair).alone hpair

/-- How far reading is after a token. -/
inductive Progress.Alike (keywords : Keywords) (n : Nat) (w : View) : Progress → Progress → Prop
  | value {a b : Nat} : Read w a b → Alike keywords n w (.value a) (.value b)
  | more {pending : List OpenForm} : Reads keywords n w →
    Pending keywords n w.left.roots.size pending →
    Alike keywords n w (.more pending) (.more pending)

namespace Reads

variable {k : Keywords} {n count : Nat} {v w : View} {a b c d : Nat} {pending : List OpenForm}

section

variable (hv : Reads k n v)
include hv

theorem later (hw : Corr w) (hlater : Later n v w) (hloose : w.left.Loose n w.left.roots.size) :
    Reads k n w :=
  ⟨hw, hlater.guard.trans hv.free, hlater.may ▸ hv.may,
    fun r hr => hlater.permanent (hv.symbols r hr), hloose⟩

theorem clear (i : Nat) : v.Clear i := fun s hs => by
  rw [hv.free] at hs
  cases hs

theorem rel_symbol (ha : a ∈ k.symbols) : v.Rel a a :=
  hv.rel_permanent (hv.symbols a ha) (by decide)

theorem rel_dot : v.Rel k.dot k.dot := hv.rel_symbol (by simp [Keywords.symbols])

theorem alone_null : v.left.Alone null :=
  alone_of_kind (by rw [(hv.left.fixture (null, .null) (by decide)).2.1]; decide)

theorem pushRoot_bind {γ δ : Type} {last : View → γ → δ → Prop} {f : Nat → HeapM γ}
    {g : Nat → HeapM δ} (hn : n ≤ v.left.roots.size) (hab : Read v a b)
    (h : ∀ w, Reads k n w → w.left.roots.size = v.left.roots.size + 1 →
      Agrees n w last (f v.left.roots.size) (g v.left.roots.size)) :
    Agrees n v last (HeapM.pushRoot a >>= f) (HeapM.pushRoot b >>= g) := by
  have hlater := hv.later_pushRoots hab.rel hn
  have hw := hv.rootPushed hab.rel
  refine .of_step hlater rfl (by rw [hv.iso.size]; rfl) (h _ (hv.later hw.corr hlater ?_) hw.size)
  rw [hw.left, hw.roots, Array.size_push]
  have hloose : v.left.Loose n (v.left.roots.size + 1) := fun i hlo _ hi => hv.loose i hlo hi hi
  exact hloose.push hab.alone

theorem cons (hn : n ≤ v.left.roots.size) (hcar : v.Rel a b) (hcdr : v.Rel c d)
    (halone : v.left.Alone a) (halone' : v.left.Alone c) :
    Agrees n v
      (fun w r s => Reads k n w ∧ w.Rel r s ∧ Solitary w.left r ∧
        w.left.roots.size = v.left.roots.size)
      (HeapM.cons a c) (HeapM.cons b d) := by
  have hmem := hv.mem_left hcar.1
  have hmem' := hv.mem_left hcdr.1
  refine ((Agrees.cons hv.toCorr hn hcar hcdr).and_left fun r g hrun =>
    HeapM.cons_owned hv.left hmem hmem' hv.loose halone halone' hrun).mono (Nat.le_refl _) ?_
  rintro w r s hw hlater ⟨hmade, hloose, hsolitary⟩
  exact ⟨hv.later hw hlater (hmade.roots ▸ hloose), hmade.rel, hsolitary, hmade.roots⟩

/-- A datum goes to the innermost open form. -/
theorem deliver (hp : Pending k n v.left.roots.size pending) (hab : Read v a b) :
    Agrees n v (Progress.Alike k n) (Reader.deliver k pending a) (Reader.deliver k pending b) := by
  induction pending generalizing v a b with
  | nil => exact .pure hv.toCorr hp.low (.value hab)
  | cons form outer ih =>
    have hdot := hv.eq_iff hab.rel hv.rel_dot
    have hn := hp.low
    cases hp with
    | quoted hhead hp =>
      refine (hv.cons hn hab.rel hv.rel_null hab.alone hv.alone_null).bind ?_
      rintro w r s - - ⟨hw, hrs, hsolitary, hsize⟩
      have halone := alone_of_kind (r := _) (by rw [(hw.symbols _ hhead).2.2]; decide)
      refine (hw.cons (hsize ▸ hn) (hw.rel_symbol hhead) hrs halone hsolitary.alone).bind ?_
      rintro u r s - - ⟨hu, hrs, hsolitary, hsize'⟩
      exact ih hu (by rw [hsize', hsize]; exact hp) ⟨hrs, fun _ => hsolitary⟩
    | list hbase hp =>
      unfold Reader.deliver
      by_cases heq : a = k.dot
      · rw [if_pos heq, if_pos (hdot.mp heq)]
        refine .rootCount_bind hv.toCorr hn ?_
        split
        · exact .pure hv.toCorr hn (.more hv (.dotted (by assumption) hp))
        · exact .throw hv.toCorr hn rfl
      · rw [if_neg heq, if_neg fun hb => heq (hdot.mpr hb)]
        refine hv.pushRoot_bind hn hab fun w hw hsize => ?_
        exact .pure hw.toCorr (by omega) (.more hw (.list (by omega) hp))
    | dotted hbase hp =>
      refine hv.pushRoot_bind hn hab fun w hw hsize => ?_
      exact .pure hw.toCorr (by omega) (.more hw (.tailed hbase (by omega) hp))
    | tailed _ _ _ => exact .throw hv.toCorr hn rfl
    | vector hbase hp =>
      unfold Reader.deliver
      by_cases heq : a = k.dot
      · rw [if_pos heq, if_pos (hdot.mp heq)]
        exact .throw hv.toCorr hn rfl
      · rw [if_neg heq, if_neg fun hb => heq (hdot.mpr hb)]
        refine hv.pushRoot_bind hn hab fun w hw hsize => ?_
        exact .pure hw.toCorr (by omega) (.more hw (.vector (by omega) hp))

/-- The roots from `base` on become a list. -/
theorem listFromRoots {base : Nat} (hn : n ≤ base) (hbase : base ≤ v.left.roots.size)
    (htail : v.Rel a b) (halone : v.left.Alone a)
    (hsome : v.left.memory.kind a = .pair → base < v.left.roots.size) :
    Agrees n v (fun w r s => Reads k n w ∧ Read w r s ∧ w.left.roots.size = base)
      (HeapM.listFromRoots base a) (HeapM.listFromRoots base b) := by
  have hlow := Nat.le_trans hn hbase
  have hloose : v.left.Loose n base := hv.loose.mono (Nat.le_refl _) hbase
  refine ((Agrees.listFromRoots hv.toCorr hlow hn (hv.clear _) htail).and_left fun r g hrun =>
    HeapM.listFromRoots_owned hv.left (hv.mem_left htail.1) hbase hloose halone hsome hrun).mono
    (Nat.le_refl _) ?_
  rintro w r s hw hlater ⟨⟨hrs, hsize⟩, hloose, hsolitary⟩
  rw [Nat.min_eq_left hbase] at hsize
  exact ⟨hv.later hw hlater (hsize ▸ hloose), ⟨hrs, hsolitary⟩, hsize⟩

theorem vectorFromRoots {base : Nat} (hn : n ≤ base) (hbase : base ≤ v.left.roots.size) :
    Agrees n v (fun w r s => Reads k n w ∧ Read w r s ∧ w.left.roots.size = base)
      (HeapM.vectorFromRoots base) (HeapM.vectorFromRoots base) := by
  have hlow := Nat.le_trans hn hbase
  have hloose : v.left.Loose n base := hv.loose.mono (Nat.le_refl _) hbase
  refine ((Agrees.vectorFromRoots hv.toCorr hlow hn (hv.clear _)).and_left fun r g hrun =>
    HeapM.vectorFromRoots_loose hv.left hloose hrun).mono (Nat.le_refl _) ?_
  rintro w r s hw hlater ⟨⟨hrs, hkind, hsize⟩, hloose⟩
  rw [Nat.min_eq_left hbase] at hsize
  exact ⟨hv.later hw hlater (hsize ▸ hloose), ⟨hrs, fun hpair => by simp [hkind] at hpair⟩, hsize⟩

theorem releaseRoots_bind {γ δ : Type} {last : View → γ → δ → Prop} {f : Unit → HeapM γ}
    {g : Unit → HeapM δ} {i : Nat} (hn : n ≤ i) (hi : i < v.left.roots.size)
    (h : ∀ w, Reads k n w → w.left.roots.size = i → w.Rel (v.left.root i) (v.right.root i) →
      w.left.Alone (v.left.root i) → Agrees n w last (f ()) (g ())) :
    Agrees n v last (HeapM.releaseRoots i >>= f) (HeapM.releaseRoots i >>= g) := by
  have hlater := hv.later_releaseRoots (hv.clear i) (Nat.le_trans hn (Nat.le_of_lt hi)) hn
  have hw := hv.rootsReleased (hv.clear i)
  have hsize : (v.releaseRoots i).left.roots.size = i :=
    hw.size.trans (Nat.min_eq_left (Nat.le_of_lt hi))
  refine .of_step hlater rfl rfl (h _ (hv.later hw.corr hlater ?_) hsize
    (hw.rel _ _ (hv.rel_root ((hv.clear 0).ne (Nat.zero_le i))))
    (hv.loose.alone_release hn hi hi (Nat.le_refl _)))
  rw [hsize]
  exact (hv.loose.mono (Nat.le_refl _) (Nat.le_of_lt hi)).release i

/-- The innermost open form ends. -/
theorem close (hp : Pending k n v.left.roots.size pending) :
    Agrees n v (Progress.Alike k n) (Reader.close k pending) (Reader.close k pending) := by
  have hn := hp.low
  cases hp with
  | nil _ | quoted _ _ | dotted _ _ => exact .throw hv.toCorr hn rfl
  | list hbase hp =>
    refine (hv.listFromRoots hp.low hbase hv.rel_null hv.alone_null fun hpair => ?_).bind ?_
    · rw [(hv.left.fixture (null, .null) (by decide)).2.1] at hpair
      cases hpair
    · rintro w r s - - ⟨hw, hrs, hsize⟩
      exact hw.deliver (hsize ▸ hp) hrs
  | tailed hbase hslot hp =>
    refine .root_bind hv.toCorr ((hv.clear 0).ne (Nat.zero_le _)) fun _ => ?_
    have hlow := Nat.le_trans hp.low (Nat.le_of_lt hbase)
    refine hv.releaseRoots_bind hlow hslot fun w hw hsize htail halone => ?_
    refine (hw.listFromRoots hp.low (by omega) htail halone fun _ => by omega).bind ?_
    rintro u r s - - ⟨hu, hrs, hsize⟩
    exact hu.deliver (hsize ▸ hp) hrs
  | vector hbase hp =>
    refine (hv.vectorFromRoots hp.low hbase).bind ?_
    rintro w r s - - ⟨hw, hrs, hsize⟩
    exact hw.deliver (hsize ▸ hp) hrs

/-- A record without references, or a symbol. -/
theorem of_made {kind : Kind} {x y : HeapM Ref} (hkind : kind ≠ .pair)
    (h : Agrees n v (Made v kind) x y)
    (hloose : ∀ r g, x v.left = .ok r g → g.Loose n v.left.roots.size) :
    Agrees n v (fun w r s => Reads k n w ∧ Read w r s ∧ w.left.roots.size = v.left.roots.size)
      x y := by
  refine (h.and_left hloose).mono (Nat.le_refl _) ?_
  rintro w r s hw hlater ⟨hmade, hloose⟩
  exact ⟨hv.later hw hlater (hmade.roots ▸ hloose),
    ⟨hmade.rel, fun hpair => absurd (hmade.kind_eq.symm.trans hpair) hkind⟩, hmade.roots⟩

theorem atom (hn : n ≤ v.left.roots.size) (a : Atom) :
    Agrees n v (fun w r s => Reads k n w ∧ Read w r s ∧ w.left.roots.size = v.left.roots.size)
      (Reader.atom a) (Reader.atom a) := by
  have hplain : ∀ {kind : Kind} {words : (Nat → Nat) → List Nat} {bytes : List UInt8} {size r : Nat}
      {g : Heap} {result : EStateM.Result Fault Heap Ref},
      v.left.Makes v.rules [] kind words bytes size result →
      kind ∈ [Kind.integer, .float, .char, .string] → result = .ok r g →
      g.Loose n v.left.roots.size := fun hmakes hkind hrun =>
    HeapM.makes_loose hv.left hv.loose (fun m r hr => by
      simp only [List.mem_cons, List.not_mem_nil, or_false] at hkind
      unfold referenceFields
      rcases hkind with rfl | rfl | rfl | rfl <;> rw [hr]) (hrun ▸ hmakes)
  cases a with
  | boolean value =>
    have hfixture : ∃ p ∈ fixtures, p.1 = Heap.boolean value := by
      cases value
      · exact ⟨(falsity, .falsity), by decide, rfl⟩
      · exact ⟨(truth, .truth), by decide, rfl⟩
    obtain ⟨p, hp, heq⟩ := hfixture
    have hrel := hv.rel_fixture hp
    refine .pure hv.toCorr hn ⟨hv, ⟨heq ▸ hrel, fun hpair => ?_⟩, rfl⟩
    rw [← heq, (hv.left.fixture p hp).2.1] at hpair
    exact absurd hpair (Corr.fixtures_ne_pair p hp)
  | number value =>
    cases value with
    | integer value =>
      exact hv.of_made (by decide) (.integer hv.toCorr hn value) fun r g hrun =>
        hplain (HeapM.makes_integer hv.left value) (by decide) hrun
    | float bits =>
      exact hv.of_made (by decide) (.float hv.toCorr hn bits) fun r g hrun =>
        hplain (HeapM.makes_float hv.left bits) (by decide) hrun
  | symbol name =>
    exact hv.of_made (by decide) (.internWith hv.toCorr hn _ _ (hv.may _)) fun r g hrun =>
      HeapM.internWith_loose hv.left hv.loose hrun
  | string text =>
    refine hv.of_made (by decide) (.string hv.toCorr hn text) fun r g hrun => ?_
    by_cases hsize : sequenceSize text.toList.length ≤ maxSize
    · exact hplain (HeapM.makes_string hv.left text hsize) (by decide) hrun
    · change HeapM.string text v.left = .ok r g at hrun
      rw [HeapM.string_eq] at hrun
      simp only [List.length_map] at hrun
      rw [HeapM.checkSize, if_pos (Nat.lt_of_not_le hsize)] at hrun
      cases hrun
  | char value =>
    exact hv.of_made (by decide) (.character hv.toCorr hn value) fun r g hrun =>
      hplain (HeapM.makes_character hv.left value) (by decide) hrun

theorem accept (hp : Pending k n v.left.roots.size pending) {token : Token}
    (htoken : token.Sensible) :
    Agrees n v (Progress.Alike k n) (Reader.accept k pending token)
      (Reader.accept k pending token) := by
  have hn := hp.low
  cases token with
  | openList =>
    exact .rootCount_bind hv.toCorr hn (.pure hv.toCorr hn (.more hv (.list (Nat.le_refl _) hp)))
  | openVector =>
    exact .rootCount_bind hv.toCorr hn (.pure hv.toCorr hn (.more hv (.vector (Nat.le_refl _) hp)))
  | close => exact hv.close hp
  | quoteMark mark =>
    have hmark : k.ofMark mark ∈ k.symbols := by cases mark <;> simp [Keywords.ofMark, Keywords.symbols]
    exact .pure hv.toCorr hn (.more hv (.quoted hmark hp))
  | atom a =>
    refine (hv.atom hn a).bind ?_
    rintro w r s - - ⟨hw, hrs, hsize⟩
    exact hw.deliver (hsize ▸ hp) hrs
  | fault fault => exact .throw hv.toCorr hn (Fault.not_isCorrupt htoken)

end

/-- What a reader makes of tokens: a datum or a fault, and the same tokens on both sides. -/
inductive Given (tokens : List Token) (w : View) :
    Except Fault Ref × List Token → Except Fault Ref × List Token → Prop
  | value {a b : Ref} {rest : List Token} : Read w a b → rest ⊆ tokens →
    Given tokens w (.ok a, rest) (.ok b, rest)
  | fault {cause : Fault} {rest : List Token} : cause.isCorrupt = false ∨ .fault cause ∈ tokens →
    Given tokens w (.error cause, rest) (.error cause, rest)

theorem Given.cons {token : Token} {tokens : List Token} {w : View}
    {p q : Except Fault Ref × List Token} (h : Given tokens w p q) : Given (token :: tokens) w p q := by
  cases h with
  | value hab hrest => exact .value hab (List.subset_cons_of_subset _ hrest)
  | fault hcause => exact .fault (hcause.imp_right (List.mem_cons_of_mem _))

theorem read_eof (hv : Reads k n v) : Read v eof eof := by
  refine ⟨hv.rel_fixture (p := (eof, .eof)) (by decide), fun hpair => ?_⟩
  rw [(hv.left.fixture (eof, .eof) (by decide)).2.1] at hpair
  cases hpair

theorem readFrom (hv : Reads k n v) (hp : Pending k n v.left.roots.size pending) (failAtEnd : Bool)
    (tokens : List Token) :
    Agrees n v (Given tokens) (Reader.readFrom k failAtEnd pending tokens)
      (Reader.readFrom k failAtEnd pending tokens) := by
  induction tokens generalizing v pending with
  | nil =>
    refine .pure hv.toCorr hp.low ?_
    split
    · exact .value hv.read_eof (List.nil_subset _)
    · exact .fault (Or.inl rfl)
  | cons token tokens ih =>
    by_cases htoken : token.Sensible
    · refine (hv.accept hp htoken).attempt.bind fun w r s hw hlater halike => ?_
      cases halike with
      | ok halike =>
        cases halike with
        | value hrs => exact .pure hw hlater.size (.value hrs (List.subset_cons_self _ _))
        | more hw hp => exact (ih hw hp).mono (Nat.le_refl _) fun _ _ _ _ _ h => h.cons
      | error fault hfault => exact .pure hw hlater.size (.fault (Or.inl hfault))
    · -- only a fault is not sensible, and it is handed out as it is
      cases token with
      | fault cause => exact .pure hv.toCorr hp.low (.fault (Or.inr List.mem_cons_self))
      | _ => exact absurd trivial htoken

end Reads

end ArenaScheme
