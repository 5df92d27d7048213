import ArenaScheme.Proofs.DataReading

/-! The reader refines the parser. Reading one datum after the other from a text gives what parsing
gives: the same data and the same faults, and each time the same text is left, until memory runs
out. A read that gives a datum leaves the root stack as it was, up to where its records are now. -/

namespace ArenaScheme

open Memory Heap

/-- How reading ends where parsing has the given outcome. -/
inductive Yields (rules : Rules) (k : Keywords) (n : Nat) (h : Heap) :
    EStateM.Result Fault Heap (Except Fault Ref × List Token) → Parser.Outcome → Prop
  | value {r : Ref} {d : Datum} {rest : List Char} {g : Heap} :
    Evolves rules n Effect.IsAddition h g → Given k n g r d →
    Yields rules k n h (.ok (.ok r, Token.scanFrom .between rest) g) (.ok d, rest)
  | fault {fault : Fault} {rest : List Char} {g : Heap} : Evolves rules n Effect.IsAddition h g →
    Yields rules k n h (.ok (.error fault, Token.scanFrom .between rest) g) (.error fault, rest)
  | memory {fault : Fault} {tokens : List Token} {outcome : Parser.Outcome} {g : Heap} :
    Evolves rules n Effect.IsAddition h g → fault.isMemory = true →
    (∀ d, outcome.1 = .ok d → d.Fits → fault.isHeapExhausted = true) →
    Yields rules k n h (.ok (.error fault, tokens) g) outcome

section Reading

variable {rules : Rules} {k : Keywords} {n : Nat} {h g : Heap}

theorem Yields.after {result : EStateM.Result Fault Heap (Except Fault Ref × List Token)}
    {outcome : Parser.Outcome} (hy : Yields rules k n g result outcome)
    (he : Evolves rules n Effect.IsAddition h g) : Yields rules k n h result outcome := by
  cases hy with
  | value he' hr => exact .value (he.trans he') hr
  | fault he' => exact .fault (he.trans he')
  | memory he' hfault hfits => exact .memory (he.trans he') hfault hfits

theorem readFrom_cons (failAtEnd : Bool) (pending : List OpenForm) (token : Token)
    (tokens : List Token) :
    Reader.readFrom k failAtEnd pending (token :: tokens) h =
      match Reader.accept k pending token h with
      | .ok (.value value) g => .ok (.ok value, tokens) g
      | .ok (.more pending) g => Reader.readFrom k failAtEnd pending tokens g
      | .error fault g => .ok (.error fault, tokens) g := by
  rw [Reader.readFrom]
  unfold HeapM.attempt
  simp only [bind, EStateM.bind]
  cases Reader.accept k pending token h with
  | ok progress g => cases progress <;> rfl
  | error fault g => rfl

/-- At the end of the text. -/
theorem Opens.yields_end {pending : List OpenForm} {forms : List OpenDatum}
    (ho : Opens k h n h.roots.size pending forms) (hh : h.Legible rules k) (failAtEnd : Bool) :
    Yields rules k n h
      (.ok (if pending.isEmpty && !failAtEnd then .ok eof else .error .unexpectedEnd,
        Token.scanFrom .between []) h)
      (if forms.isEmpty && !failAtEnd then .ok .eof else .error .unexpectedEnd, []) := by
  have hlow := ho.low
  generalize hcount : h.roots.size = count at ho
  cases ho with
  | nil =>
    cases failAtEnd with
    | false =>
      subst hcount
      exact .value (.refl hh.sound hlow) hh.given_eof
    | true => exact .fault (.refl hh.sound hlow)
  | _ => exact .fault (.refl hh.sound hlow)

/-- Reading on from forms that are open goes as parsing on. -/
theorem Opens.readFrom {pending : List OpenForm} {forms : List OpenDatum}
    (ho : Opens k h n h.roots.size pending forms) (hh : h.Legible rules k) (failAtEnd : Bool)
    (text : List Char) :
    Yields rules k n h
      (Reader.readFrom k failAtEnd pending (Token.scanFrom .between text) h)
      (Parser.parseFrom failAtEnd forms text) := by
  -- the tokens are the next one and those of the rest, and both sides take it in alike
  have hnext : ∀ {h : Heap} {pending : List OpenForm} {forms : List OpenDatum}
      {text rest : List Char} {token : Token}, Token.next? text = some (token, rest) →
      Opens k h n h.roots.size pending forms → h.Legible rules k →
      Token.scanFrom .between text = token :: Token.scanFrom .between rest ∧
      Follows rules n h Parsed.Fits (Progress.Shows k n) (Reader.accept k pending token h)
        (Parser.accept forms token) := by
    intro h pending forms text rest token hnext ho hh
    rw [Token.scanFrom_between, hnext]
    exact ⟨rfl, ho.accept hh (Token.fits_of_next? hnext)⟩
  fun_induction Parser.parseFrom failAtEnd forms text generalizing h pending with
  | case1 forms text hend =>
    rw [Token.scanFrom_between, hend]
    exact ho.yields_end hh failAtEnd
  | case2 forms text token rest htoken d haccept =>
    obtain ⟨hscan, hf⟩ := hnext htoken ho hh
    rw [haccept] at hf
    rw [hscan, readFrom_cons]
    generalize Reader.accept k pending token h = result at hf
    cases hf with
    | ok he hprogress =>
      cases hprogress with
      | value hr => exact .value he hr
    | memory he hmemory hfits =>
      refine .memory he hmemory fun d' hd' hfit => hfits _ rfl ?_
      cases hd'
      exact hfit
  | case3 forms text token rest htoken forms' haccept ih =>
    obtain ⟨hscan, hf⟩ := hnext htoken ho hh
    rw [haccept] at hf
    rw [hscan, readFrom_cons]
    generalize Reader.accept k pending token h = result at hf
    cases hf with
    | ok he hprogress =>
      cases hprogress with
      | more ho' => exact (ih ho' (hh.evolve he)).after he
    | memory he hmemory hfits =>
      exact .memory he hmemory fun d hd hd' => hfits _ rfl (Parser.parseFrom_fits hd hd')
  | case4 forms text token rest htoken fault haccept =>
    obtain ⟨hscan, hf⟩ := hnext htoken ho hh
    rw [haccept] at hf
    rw [hscan, readFrom_cons]
    generalize Reader.accept k pending token h = result at hf
    cases hf with
    | error he => exact .fault he
    | memory he hmemory _ => exact .memory he hmemory fun _ hd => by cases hd

end Reading

/-! Faults of texts. -/

namespace Parser

/-- A result that is no fault but one of a text. -/
def Sensible {α : Type} (p : Except Fault α) : Prop :=
  ∀ fault, p = .error fault → fault.isSyntax = true

theorem Sensible.ok {α : Type} (a : α) : Sensible (.ok a : Except Fault α) := nofun

theorem Sensible.error {α : Type} {fault : Fault} (h : fault.isSyntax = true) :
    Sensible (.error fault : Except Fault α) := by
  intro other heq
  cases heq
  exact h

theorem sensible_deliver (forms : List OpenDatum) (d : Datum) : Sensible (deliver forms d) := by
  induction forms generalizing d with
  | nil => exact .ok _
  | cons form outer ih =>
    cases form with
    | quoted mark => exact ih _
    | list items =>
      rw [deliver]
      split
      · split
        · exact .error rfl
        · exact .ok _
      · exact .ok _
    | dotted items => exact .ok _
    | tailed items tail => exact .error rfl
    | vector items =>
      rw [deliver]
      split
      · exact .error rfl
      · exact .ok _

theorem sensible_close (forms : List OpenDatum) : Sensible (close forms) := by
  match forms with
  | [] | .quoted _ :: _ | .dotted _ :: _ => exact .error rfl
  | .list _ :: outer | .tailed .. :: outer | .vector _ :: outer => exact sensible_deliver outer _

end Parser

theorem Token.sensible_of_next? {text rest : List Char} {token : Token}
    (h : Token.next? text = some (token, rest)) : token.Sensible := by
  unfold next? at h
  split at h
  · cases h
  · rename_i c left _
    obtain rfl : (startingWith c left).1 = token := by rw [Option.some.inj h]
    unfold startingWith
    split
    case h_1 | h_2 | h_3 | h_4 | h_5 => trivial
    case h_6 => split <;> trivial
    case h_7 =>
      fun_cases afterHash left with
      | case1 | case3 => rfl
      | case2 | case5 => trivial
      | case4 => exact sensible_ofCharName _
      | case6 => exact sensible_ofWord _
    case h_8 => exact sensible_ofWord _

namespace Parser

theorem sensible_parseFrom (failAtEnd : Bool) (forms : List OpenDatum) (text : List Char) :
    Sensible (parseFrom failAtEnd forms text).1 := by
  fun_induction parseFrom failAtEnd forms text with
  | case1 forms text hend =>
    split
    · exact .ok _
    · exact .error rfl
  | case2 forms text token rest htoken d haccept => exact .ok d
  | case3 forms text token rest htoken forms' haccept ih => exact ih
  | case4 forms text token rest htoken fault haccept =>
    refine .error ?_
    cases token with
    | openList | openVector | quoteMark _ => cases haccept
    | close => exact sensible_close forms fault haccept
    | atom a => exact sensible_deliver forms a.datum fault haccept
    | fault other =>
      cases haccept
      exact Token.sensible_of_next? htoken

theorem sensible_outcomes {failAtEnd : Bool} {count : Nat} {text : List Char} {outcome : Outcome}
    (h : outcome ∈ outcomes failAtEnd count text) : Sensible outcome.1 := by
  induction count generalizing text with
  | zero => cases h
  | succ count ih =>
    rcases List.mem_cons.mp h with rfl | h
    · exact sensible_parseFrom failAtEnd [] text
    · exact ih h

end Parser

/-! One datum after the other. -/

namespace Machine

/-- Reading again and again has these outcomes, until memory runs out. -/
inductive ReadsAs (failAtEnd : Bool) : Machine → List Token → List Parser.Outcome → Prop
  | done {m : Machine} {tokens : List Token} : ReadsAs failAtEnd m tokens []
  | value {m m' : Machine} {tokens : List Token} {r : Ref} {d : Datum} {rest : List Char}
    {more : List Parser.Outcome} {link : Nat → Nat → Prop} :
    Session.read failAtEnd tokens m = .ok (.ok r, Token.scanFrom .between rest) m' →
    m'.heap.datum r = .ok d → m'.heap.roots.size = m.heap.roots.size →
    Keeps link m.heap m'.heap → (∀ i < m.heap.roots.size, link (m.heap.root i) (m'.heap.root i)) →
    ReadsAs failAtEnd m' (Token.scanFrom .between rest) more →
    ReadsAs failAtEnd m tokens ((.ok d, rest) :: more)
  | fault {m m' : Machine} {tokens : List Token} {fault : Fault} {rest : List Char}
    {more : List Parser.Outcome} :
    Session.read failAtEnd tokens m = .ok (.error fault, Token.scanFrom .between rest) m' →
    ReadsAs failAtEnd m' (Token.scanFrom .between rest) more →
    ReadsAs failAtEnd m tokens ((.error fault, rest) :: more)
  | memory {m m' : Machine} {tokens left : List Token} {fault : Fault}
    {outcomes : List Parser.Outcome} :
    Session.read failAtEnd tokens m = .ok (.error fault, left) m' → fault.isMemory = true →
    ReadsAs failAtEnd m tokens outcomes

variable {m : Machine}

theorem Intact.legible (hm : m.Intact) : m.heap.Legible m.rules m.keywords where
  sound := hm.sound
  orderly := hm.stands.ordered.pinned
  indexed := hm.indexed
  named := hm.named

theorem Intact.yields (hm : m.Intact) (failAtEnd : Bool) (text : List Char) :
    Yields m.rules m.keywords m.heap.roots.size m.heap
      (Reader.read m.keywords failAtEnd (Token.scanFrom .between text) m.heap)
      (Parser.parse failAtEnd text) :=
  Opens.readFrom .nil hm.legible failAtEnd text

theorem Intact.readsAs (hm : m.Intact) (failAtEnd : Bool) (count : Nat) (text : List Char) :
    m.ReadsAs failAtEnd (Token.scanFrom .between text) (Parser.outcomes failAtEnd count text) := by
  induction count generalizing m text with
  | zero => exact .done
  | succ count ih =>
    have hy := hm.yields failAtEnd text
    have hread : Session.read failAtEnd (Token.scanFrom .between text) m =
      Eval.onHeap (Reader.read m.keywords failAtEnd (Token.scanFrom .between text)) m := rfl
    rw [Parser.outcomes]
    unfold Eval.onHeap at hread
    generalize Reader.read m.keywords failAtEnd (Token.scanFrom .between text) m.heap = result
      at hy hread
    generalize Parser.parse failAtEnd text = outcome at hy ⊢
    cases hy with
    | @value r d rest g he hr =>
      obtain ⟨link, hkeeps, hroot⟩ := he.keeps hm.indexed
      exact .value hread (hr.shows.datum_eq he.sound_right hr.mem) hr.height hkeeps hroot
        (ih (hm.evolve he) rest)
    | @fault fault rest g he => exact .fault hread (ih (hm.evolve he) rest)
    | memory he hfault _ => exact .memory hread hfault

end Machine

end ArenaScheme
