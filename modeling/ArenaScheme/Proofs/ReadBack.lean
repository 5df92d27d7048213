import ArenaScheme.Proofs.HeapText
import ArenaScheme.Proofs.ReaderRefinement

/-! What is written of a value reads back. The text of a value whose copy is readable gives a value
with the same copy, whatever delimiter follows it, unless memory runs out. No record of the value
is too large a second time, since all its parts are in a heap already. -/

namespace ArenaScheme

open Memory Heap

namespace Heap

variable {rules : Rules} {h g : Heap} {n : Nat} {may : Effect → Prop}

/-! The names of symbols are texts. -/

/-- The names of the symbols are bytes of texts. -/
def Lettered (h : Heap) : Prop :=
  ∀ name, h.HasName name → ∃ text : String, name = text.toUTF8.toList

theorem Evolves.lettered (he : Evolves rules n may h g) (ht : h.Indexed) (hl : h.Lettered) :
    g.Lettered := by
  intro name hname
  rcases (he.hasName ht name).2 hname with hname | ⟨-, htext⟩
  · exact hl name hname
  · exact htext

theorem Blank.lettered (hb : h.Blank) : h.Lettered := by
  rintro name ⟨r, hr, hk, -⟩
  obtain ⟨p, hp, rfl⟩ := hb.records r hr
  have hplain : ∀ p ∈ fixtures, p.2 ≠ Kind.symbol := by decide
  exact absurd ((hb.sound.fixture p hp).2.1.symm.trans hk) (hplain p hp)

end Heap

namespace Machine

variable {m : Machine} {size : UInt32}

theorem evolves_furnish {h : Heap} (hb : h.Blank) (htop : h.top = 20) :
    ∃ fixed g, furnish h = .ok fixed g ∧ Evolves Rules.strict 0 Effect.Tame h g := by
  obtain ⟨w, fixed, _, _, hlater, _, _, _, hrun, _⟩ := (furnished_blank hb hb).furnish htop
  exact ⟨fixed, w.left, hrun, hlater.evolves⟩

/-- The heap of a machine that has just started comes from a new one, but for its mode. -/
theorem lettered_start (hstart : start size.toNat = .ok m) : m.heap.Lettered := by
  have hle : size.toNat ≤ maxSize := Nat.le_of_lt_succ size.toNat_lt
  have hb := blank_new hle
  obtain ⟨fixed, g, hrun, he⟩ := evolves_furnish hb rfl
  have hg : { g with pinning := false }.Lettered := he.lettered hb.tidy.table hb.lettered
  have hup : startUp (Heap.new size.toNat) = .ok fixed { g with pinning := false } := by
    rw [startUp_eq, hrun]
  unfold start at hstart
  rw [hup] at hstart
  exact Except.ok.inj hstart ▸ hg

theorem Reachable.lettered (hr : Reachable size m) : m.heap.Lettered :=
  hr.invariant (fun _ h => lettered_start h) fun _ _ _ _ hk he _ hl => he.lettered hk.indexed hl

/-- A constructor that a host calls. -/
theorem Reachable.construct {c : Construction} {r : Ref} {g : Heap} (hm : Reachable size m)
    (hc : c.Valid m.heap) (hplain : c.frames = [] ∧ c.op.captured = [])
    (hrun : c.run m.heap = .ok r g) :
    Reachable size { m with heap := g } ∧ r ∈ g.records ∧ ∃ kept place,
      m.heap.Extends c.refs (c.height m.heap) kept place [(r, (c.content m.heap).map place)] g ∧
      g.content r = (c.content m.heap).map place := by
  obtain ⟨kept, place, hext⟩ := Construction.extends hm.intact.sound.filled hc hrun
  obtain ⟨hmem, hcontent⟩ := store_eq_some.mp (hext.new _ (List.mem_singleton_self _))
  have hreach : Reachable size { m with heap := c.op.apply m.heap } :=
    .operate hm (Construction.op_valid hc (by simp [hplain.1])) (by simp [hplain.2])
  rw [Construction.apply_op, Heap.after, hrun] at hreach
  exact ⟨hreach, hmem, kept, place, hext, hcontent⟩

end Machine

namespace Heap

variable {rules : Rules} {h : Heap} {r : Nat} {d : Datum}

/-- What a record shows would fit into records again. -/
theorem Shows.fits (hd : h.Shows r d) (hs : h.Sound rules) (hl : h.Lettered) (hr : r ∈ h.records) :
    d.Fits := by
  have hextent : ∀ r ∈ h.records, h.memory.extent r ≤ maxSize := by
    intro r hr
    have := (hs.wf.tiled.bounds hr).2
    have := hs.wf.top_le
    have := hs.wf.capacity_le
    omega
  induction hd with
  | @plain r d ho =>
    cases hobject : h.object r <;> rw [hobject] at ho <;> cases ho <;> constructor
  | @symbol r name ho =>
    obtain ⟨hk, rfl⟩ := symbolName_eq_ok_iff.mp ho
    obtain ⟨text, htext⟩ := hl _ ⟨r, hr, hk, rfl⟩
    have hle := hextent r hr
    simp only [extent, hk] at hle
    refine .symbol ?_
    rw [htext, Text.decode_toUTF8, ← Text.length_toUTF8, ← htext, nameBytes, List.length_map,
      List.length_range]
    exact hle
  | @string r text ho =>
    obtain ⟨hk, rfl⟩ := stringValue_eq_ok_iff.mp ho
    have hle := hextent r hr
    simp only [extent, hk] at hle
    refine .string ?_
    rw [String.toList_ofList, characters, List.length_map, List.length_range]
    exact hle
  | @pair r car cdr a b ho _ _ ihcar ihcdr =>
    obtain ⟨hk, rfl, rfl⟩ := kind_of_pair ho
    exact .pair (ihcar (hs.pair_field_mem hr hk (k := 0) (by decide)))
      (ihcdr (hs.pair_field_mem hr hk (k := 1) (by decide)))
  | @vector r items ho _ ih =>
    obtain ⟨hk, hlength⟩ := kind_of_vector ho
    have hle := hextent r hr
    simp only [extent, hk] at hle
    refine .vector (hlength ▸ hle) fun d hd => ?_
    obtain ⟨i, hi, rfl⟩ := List.getElem_of_mem hd
    exact ih i hi (field_mem_vector hs hr ho hi)

end Heap

/-- Writing and reading is the identity on readable data: whatever a host that evaluates in frames
has done, the text of a value whose copy is `d`, followed by the end, a blank or a closing delimiter,
is read as a value whose copy is `d`, and what follows is left. Only memory can run out. -/
theorem read_write (size : UInt32) (m : Machine) (hm : Machine.Reachable size m) (v : Ref)
    (hv : v ∈ m.heap.records) (d : Datum) (hd : d.Readable) (hcopy : m.heap.datum v = .ok d)
    (rest : List Char) (hrest : Token.delimits rest = true) (failAtEnd : Bool) :
    Parser.parse failAtEnd ((m.heap.write v).toList ++ rest) = (.ok d, rest) ∧
      ∃ result left m', Session.read failAtEnd
          (Token.scan (m.heap.write v ++ String.ofList rest)) m = .ok (result, left) m' ∧
        ((∃ r ∈ m'.heap.records, result = .ok r ∧ m'.heap.datum r = .ok d ∧
            left = Token.scan (String.ofList rest)) ∨
          ∃ request, result = .error (.heapExhausted request)) := by
  have hshows := shows_of_datumFrom hm.intact.sound hd hv hcopy
  have htext := hshows.write_eq hm.intact.sound hv
  have hparse := @Parser.parse_print failAtEnd d rest hd hrest
  have hy := hm.intact.yields failAtEnd (d.print ++ rest)
  rw [hparse] at hy
  rw [htext, String.toList_ofList]
  refine ⟨hparse, ?_⟩
  have hread : Session.read failAtEnd (Token.scan (String.ofList d.print ++ String.ofList rest)) m =
      Eval.onHeap (Reader.read m.keywords failAtEnd (Token.scanFrom .between (d.print ++ rest))) m := by
    rw [← String.ofList_append, Token.scan, String.toList_ofList]
    rfl
  unfold Eval.onHeap at hread
  generalize Reader.read m.keywords failAtEnd (Token.scanFrom .between (d.print ++ rest)) m.heap =
    result at hy hread
  cases hy with
  | @value r d rest g he hr =>
    refine ⟨_, _, _, hread, Or.inl ⟨r, hr.mem, rfl, hr.shows.datum_eq he.sound_right hr.mem, ?_⟩⟩
    rw [Token.scan, String.toList_ofList]
  | @memory fault tokens outcome g he hmemory hfits =>
    have hexhausted := hfits d rfl (hshows.fits hm.intact.sound hm.lettered hv)
    cases fault <;> cases hexhausted
    exact ⟨_, _, _, hread, Or.inr ⟨_, rfl⟩⟩

/-- The dotted pair `(quote . #("\"\n" "\"\n"))`, followed by a closing delimiter. -/
theorem read_write_sample :
    ∃ m v d, Machine.Reachable 0 m ∧ v ∈ m.heap.records ∧ m.heap.datum v = .ok d ∧
      d = .pair (.symbol "quote") (.vector [.string "\"\n", .string "\"\n"]) ∧
      Parser.parse true ((m.heap.write v).toList ++ [')', 'x']) = (.ok d, [')', 'x']) ∧
      ∃ result left m',
        Session.read true (Token.scan (m.heap.write v ++ String.ofList [')', 'x'])) m =
          .ok (result, left) m' ∧
        ((∃ r ∈ m'.heap.records, result = .ok r ∧ m'.heap.datum r = .ok d ∧
            left = Token.scan (String.ofList [')', 'x'])) ∨
          ∃ request, result = .error (.heapExhausted request)) := by
  obtain ⟨m, hstart, hm, htop⟩ := Machine.exists_start 0
  have hroom : 20 + furnishCost + sequenceSize 2 + sequenceSize 2 + fieldsSize 2 ≤ maxSize := by decide
  have hlength : "\"\n".toList.length = 2 := by decide
  -- the string
  obtain ⟨s, g₁, hstring, htop₁⟩ := (HeapM.makes_string hm.sound "\"\n" (by
    rw [hlength]; omega)).exists_ok (by rw [hlength]; omega)
  rw [hlength] at htop₁
  have hr : Machine.Reachable 0 m := .start hstart
  obtain ⟨hm₁, hs, _, _, -, hcontent⟩ := hr.construct
    (c := .string "\"\n") ⟨by simp [Construction.refs], Nat.le_refl _, trivial⟩ ⟨rfl, rfl⟩ hstring
  have hshows : g₁.Shows s (.string "\"\n") := .string (stringValue_iff.mpr ⟨_, hcontent, by decide⟩)
  -- the vector
  obtain ⟨v, g₂, hvector, htop₂⟩ := (HeapM.makes_makeVector hm₁.intact.sound 2 hs
    (by omega)).exists_ok (by change g₁.top + _ ≤ _; omega)
  obtain ⟨hm₂, hv, _, place, hext, hcontent⟩ := hm₁.construct (c := .makeVector 2 s)
    ⟨List.forall_mem_singleton.mpr hs, Nat.le_refl _, trivial⟩ ⟨rfl, rfl⟩ hvector
  have hstring := hshows.extend hm₁.intact.sound hext hs (.root (by simp [Construction.refs]))
  have hshows : g₂.Shows v (.vector [.string "\"\n", .string "\"\n"]) :=
    shows_vector_iff.mpr ⟨_, hcontent, .cons hstring (.cons hstring .nil)⟩
  -- the pair
  obtain ⟨hquote, hname⟩ := hm₂.intact.named (m.keywords.quote, "quote") (by simp [Keywords.named])
  obtain ⟨p, g₃, hcons, -⟩ := (HeapM.makes_cons hm₂.intact.sound hquote.1 hv).exists_ok
    (by change g₂.top + _ ≤ _; change g₂.top ≤ g₁.top + _ at htop₂; omega)
  obtain ⟨hm₃, hp, _, place, hext, hcontent⟩ := hm₂.construct (c := .cons m.keywords.quote v)
    ⟨List.forall_mem_cons.mpr ⟨hquote.1, List.forall_mem_singleton.mpr hv⟩, Nat.le_refl _, trivial⟩
    ⟨rfl, rfl⟩ hcons
  have hcopy := (Shows.pair (object_eq_pair_iff_content.mpr hcontent)
    (Shows.extend (.symbol (symbolName_eq_ok hquote.2.2 hname)) hm₂.intact.sound hext hquote.1
      (.root (by simp [Construction.refs])))
    (hshows.extend hm₂.intact.sound hext hv (.root (by simp [Construction.refs])))).datum_eq
      hm₃.intact.sound hp
  have hletters : "quote".toList = ['q', 'u', 'o', 't', 'e'] := by decide
  have hreadable : Datum.ReadableName "quote" := by
    refine ⟨by decide, ?_, fun c rest heq => ?_, fun rest heq => ?_, by decide, by decide +kernel⟩
    · rw [hletters]
      simp [Text.isBlank, Text.inRanges, Text.blankRanges]
    · rw [hletters] at heq
      cases heq
      decide
    · rw [hletters] at heq
      cases heq
  exact ⟨_, p, _, hm₃, hp, hcopy, rfl, read_write 0 _ hm₃ p hp _ (.pair (.symbol hreadable)
    (.vector (by simp [Datum.Readable.string]))) hcopy [')', 'x'] (by decide +kernel) true⟩

end ArenaScheme
