import ArenaScheme.Proofs.ReadBack

/-! What a machine makes while it starts stays where it is. All these records are pinned and no other
record ever is, so they come first in the heap, and what the machine remembers of them, which no
collection corrects, goes on being right. -/

namespace ArenaScheme

open Memory Heap

/-- Of two increasing lists, one that holds just the first elements of the other is its start. -/
theorem prefix_of_increasing {as bs : List Nat} (ha : as.Pairwise (· < ·)) (hb : bs.Pairwise (· < ·))
    (hmem : ∀ a ∈ as, a ∈ bs) (hdown : ∀ a ∈ as, ∀ b ∈ bs, b < a → b ∈ as) : as <+: bs := by
  induction as generalizing bs with
  | nil => exact List.nil_prefix
  | cons a as ih =>
    obtain ⟨ha, has⟩ := List.pairwise_cons.mp ha
    cases bs with
    | nil => exact absurd (hmem a (.head _)) List.not_mem_nil
    | cons b bs =>
      obtain ⟨hb, hbs⟩ := List.pairwise_cons.mp hb
      have heq : a = b := by
        rcases List.mem_cons.mp (hmem a (.head _)) with heq | hin
        · exact heq
        · rcases List.mem_cons.mp (hdown a (.head _) b (.head _) (hb a hin)) with heq | hin'
          · exact heq.symm
          · exact absurd (ha b hin') (Nat.not_lt_of_lt (hb a hin))
      subst heq
      refine List.prefix_cons_inj a |>.mpr (ih has hbs (fun x hx => ?_) fun x hx y hy hlt => ?_)
      · exact (List.mem_cons.mp (hmem x (.tail _ hx))).resolve_left (Nat.ne_of_gt (ha x hx))
      · exact (List.mem_cons.mp (hdown x (.tail _ hx) y (.tail _ hy) hlt)).resolve_left
          (Nat.ne_of_gt (hb y hy))

namespace Heap

variable {rules : Rules} {n r : Nat} {may : Effect → Prop} {h g : Heap}

/-! Once a heap does not pin what it makes, no record becomes pinned. -/

/-- The pinned records of `g` are pinned records of `h`. -/
def PinsNoMore (h g : Heap) : Prop :=
  ∀ r ∈ g.records, g.memory.isPinned r = true → r ∈ h.records ∧ h.memory.isPinned r = true

theorem PinsNoMore.trans {k : Heap} (hk : PinsNoMore h k) (hg : PinsNoMore k g) : PinsNoMore h g :=
  fun r hr hpin => (hg r hr hpin).elim (hk r)

theorem Pushed.pinsNoMore {kind : Kind} {words : List Nat} {bytes : List UInt8} {size : Nat}
    {m : Memory} (hm : h.Pushed rules kind words bytes size m) (wf : h.WellFormed)
    (hfree : h.pinning = false) : PinsNoMore h { h with memory := m, top := h.top + size } := by
  intro r hr hpin
  rw [hm.records wf] at hr
  rcases List.mem_append.mp hr with hr | hr
  · exact ⟨hr, (hm.lasts wf hr).pinned.symm.trans hpin⟩
  · obtain rfl := List.mem_singleton.mp hr
    have hnot := hm.written.pinned.symm.trans hpin
    rw [hfree] at hnot
    cases hnot

theorem Sound.pinsNoMore_setField {x l t : Nat} {m : Memory} (hs : h.Sound rules)
    (hm : FieldSet h.records h.memory x l t m) : PinsNoMore h { h with memory := m } := by
  intro r hr hpin
  rw [hs.records_setField hm] at hr
  exact ⟨hr, (hs.lasts_setField hm hr).pinned.symm.trans hpin⟩

theorem Change.pinsNoMore (hc : h.Change rules n may g) (hs : h.Sound rules)
    (hfree : h.pinning = false) : PinsNoMore h g := by
  cases hc with
  | move hmove =>
    intro s hmem hpin
    obtain ⟨p, hkept, rfl⟩ := (hmove.records s).mp hmem
    have hp := hmove.mem p hkept
    have hpin : h.memory.isPinned p = true := (hmove.record p hkept).pinned.symm.trans hpin
    rw [hs.place_pinned hmove hp hpin]
    exact ⟨hp, hpin⟩
  | roots _ _ _ _ => exact fun _ hr hpin => ⟨hr, hpin⟩
  | record hm _ _ => exact hm.pinsNoMore hs.wf hfree
  | field _ hm _ _ => exact hs.pinsNoMore_setField hm
  | symbol hadded _ =>
    obtain ⟨_, m, hm, hhung⟩ := hadded.added
    cases hhung with
    | first _ => exact hm.pinsNoMore hs.wf hfree
    | below _ hset => exact (hm.pinsNoMore hs.wf hfree).trans ((hm.sound hs).pinsNoMore_setField hset)
  | binding hadded _ =>
    obtain ⟨m, hm, ⟨_, hset⟩⟩ := hadded.added
    exact (hm.pinsNoMore hs.wf hfree).trans ((hm.sound hs).pinsNoMore_setField hset)

theorem Evolves.pinsNoMore (he : Evolves rules n may h g) (hfree : h.pinning = false) :
    PinsNoMore h g := by
  induction he with
  | refl _ _ => exact fun _ hr hpin => ⟨hr, hpin⟩
  | step hs _ hc _ ih => exact (hc.pinsNoMore hs hfree).trans (ih (hc.pinning.trans hfree))

end Heap

/-! Runs of operations. -/

namespace HeapOp

variable {h : Heap}

theorem validRun_append {ops rest : List HeapOp} :
    ValidRun h (ops ++ rest) ↔ ValidRun h ops ∧ ValidRun (ops.foldl apply h) rest := by
  induction ops generalizing h with
  | nil => exact ⟨fun h => ⟨trivial, h⟩, And.right⟩
  | cons op ops ih => exact (and_congr_right fun _ => ih).trans and_assoc.symm

theorem ValidRun.evolves {ops : List HeapOp} (hops : ValidRun h ops) (hs : h.Sound Rules.bare) :
    Evolves Rules.bare 0 (fun _ => True) h (ops.foldl apply h) := by
  induction ops generalizing h with
  | nil => exact .refl hs (Nat.zero_le _)
  | cons op ops ih =>
    have hop := ((HeapOp.evolves hs hops.1).mono (Nat.zero_le _)).allow fun _ _ => trivial
    exact hop.trans (ih hops.2 hop.sound_right)

end HeapOp

/-- The heap that a machine of this size furnishes. It pins what is made. -/
def Heap.unfurnished (size : UInt32) : Heap := { Heap.new size.toNat with pinning := true }

theorem Heap.sound_unfurnished (size : UInt32) : (Heap.unfurnished size).Sound Rules.bare := by
  have hs := Sound.new (Nat.le_of_lt_succ size.toNat_lt) Rules.bare
  refine hs.withPinning true fun _ r hr => ?_
  obtain ⟨p, hp, rfl⟩ := mem_records_new hr
  exact (hs.fixture p hp).2.2

namespace Machine

variable {m m₀ : Machine} {size : UInt32} {ops : List HeapOp} {v : Nat} {form : SpecialForm}

/-- `m₀` starts with a heap of this size, which these operations furnish. -/
structure Starts (size : UInt32) (ops : List HeapOp) (m₀ : Machine) : Prop where
  run : start size.toNat = .ok m₀
  valid : HeapOp.ValidRun (Heap.unfurnished size) ops
  heap : m₀.heap = { ops.foldl HeapOp.apply (Heap.unfurnished size) with pinning := false }

theorem exists_starts (size : UInt32) : ∃ m₀ ops, Starts size ops m₀ ∧
    m₀.keywords.forms.map Prod.snd = SpecialForm.all := by
  have hb := blank_new (Nat.le_of_lt_succ size.toNat_lt)
  obtain ⟨w, p, _, -, -, -, ⟨ops, hvalid, hops⟩, ⟨-, hequipped, -⟩, hrun, -⟩ :=
    (furnished_blank hb hb).furnish rfl
  change furnish { Heap.new size.toNat with pinning := true } = .ok p w.left at hrun
  refine ⟨⟨{ w.left with pinning := false }, p.1, p.2.1, p.2.2, #[], "", false⟩, ops, ⟨?_, hvalid, ?_⟩,
    hequipped.forms⟩
  · unfold start
    rw [startUp_eq, hrun]
  · exact congrArg (fun h : Heap => { h with pinning := false }) hops.symm

/-- While a machine starts, each record that is made stays. -/
theorem Starts.lasts (hm : Starts size ops m₀) {made rest : List HeapOp} (hops : made ++ rest = ops)
    {r : Nat} (hr : r ∈ (made.foldl HeapOp.apply (Heap.unfurnished size)).records) :
    (made.foldl HeapOp.apply (Heap.unfurnished size)).memory.isPinned r = true ∧
      Lasts (made.foldl HeapOp.apply (Heap.unfurnished size)) r m₀.heap := by
  have hvalid := hm.valid
  rw [← hops] at hvalid
  obtain ⟨hmade, hrest⟩ := HeapOp.validRun_append.mp hvalid
  have he := hmade.evolves (sound_unfurnished size)
  have hpin := he.sound_right.pinning he.pinning r hr
  have hlasts := (hrest.evolves he.sound_right).pinned hr hpin
  rw [← List.foldl_append, hops] at hlasts
  rw [hm.heap]
  exact ⟨hpin, hlasts.mem, hlasts.pinned, hlasts.kind⟩

/-- `m` remembers what `m₀` remembers, and its heap comes from that of `m₀`. -/
structure ComesFrom (m₀ m : Machine) : Prop where
  keywords : m.keywords = m₀.keywords
  globals : m.globals = m₀.globals
  transformers : m.transformers = m₀.transformers
  evolves : Evolves m₀.rules 0 (fun _ => True) m₀.heap m.heap

namespace ComesFrom

theorem rules (hc : ComesFrom m₀ m) : m.rules = m₀.rules := by
  rw [Machine.rules, Machine.rules, hc.transformers]

theorem step {m' : Machine} {n : Nat} {may : Effect → Prop} (hc : ComesFrom m₀ m)
    (hkeywords : m'.keywords = m.keywords) (hglobals : m'.globals = m.globals)
    (htransformers : m'.transformers = m.transformers)
    (he : Evolves m.rules n may m.heap m'.heap) : ComesFrom m₀ m' where
  keywords := hkeywords.trans hc.keywords
  globals := hglobals.trans hc.globals
  transformers := htransformers.trans hc.transformers
  evolves := hc.evolves.trans (hc.rules ▸ (he.mono (Nat.zero_le _)).allow fun _ _ => trivial)

theorem become {m' : Machine} {n : Nat} (hc : ComesFrom m₀ m) (hb : Becomes n m m') :
    ComesFrom m₀ m' :=
  hc.step (hb.same ▸ rfl) (hb.same ▸ rfl) (hb.same ▸ rfl) hb.evolves

end ComesFrom

/-- Every machine comes from the one that was started. -/
theorem Reachable.comesFrom (hr : Reachable size m) (hstart : Machine.start size.toNat = .ok m₀) :
    ComesFrom m₀ m := by
  induction hr with
  | start h =>
    have hintact := (Hosted.start h).intact
    obtain rfl := Except.ok.inj (hstart.symm.trans h)
    exact ⟨rfl, rfl, rfl, .refl hintact.sound (Nat.zero_le _)⟩
  | call fuel hr hcall ih => exact ih.become (Call.becomes (alike_builtins trivial) hr.intact hcall fuel)
  | read failAtEnd tokens hr ih => exact ih.become (hr.intact.read failAtEnd tokens)
  | operate hr hop hcaptured ih =>
    exact ih.step rfl rfl rfl (HeapOp.evolves_under hr.intact.sound
      ⟨Or.inr View.single_diagonal, hr.intact.stands.ordered.pinned⟩ (fun _ => hcaptured) hop)
  | install procedure hr ih =>
    have hb := hr.intact.install procedure
    exact ih.step (hb.same ▸ rfl) (hb.same ▸ rfl) (hb.same ▸ rfl) hb.evolves
  | trace _ _ ih => exact ⟨ih.keywords, ih.globals, ih.transformers, ih.evolves⟩
  | flush _ ih => exact ⟨ih.keywords, ih.globals, ih.transformers, ih.evolves⟩

/-- The symbols of special forms are those with their names. -/
theorem Intact.specialForm_iff (hm : m.Intact) (hl : m.heap.Lettered)
    (hforms : m.keywords.forms.map Prod.snd = SpecialForm.all) :
    m.keywords.specialForm? v = some form ↔
      v ∈ m.heap.records ∧ m.heap.symbolName v = .ok form.name := by
  have hnamed : ∀ p ∈ m.keywords.forms, m.heap.Named p.1 p.2.name := fun p hp =>
    hm.named _ (List.mem_append_left _ (List.mem_map_of_mem hp))
  have hfound : ∀ {form}, m.keywords.specialForm? v = some form → m.heap.Named v form.name := by
    intro form hlookup
    obtain ⟨before, behind, heq, -⟩ := List.lookup_eq_some_iff.mp hlookup
    exact hnamed (v, form) (heq ▸ List.mem_append_right _ (.head _))
  constructor
  · intro hlookup
    obtain ⟨⟨hmem, -, hkind⟩, hname⟩ := hfound hlookup
    exact ⟨hmem, symbolName_eq_ok_iff.mpr ⟨hkind, hname ▸ Text.decode_toUTF8 _⟩⟩
  · rintro ⟨hmem, hname⟩
    obtain ⟨hkind, hdecode⟩ := symbolName_eq_ok_iff.mp hname
    obtain ⟨text, htext⟩ := hl _ ⟨v, hmem, hkind, rfl⟩
    have hbytes : m.heap.nameBytes v = form.name.toUTF8.toList := by
      rw [← hdecode, htext, Text.decode_toUTF8]
    have hall : form ∈ m.keywords.forms.map Prod.snd := hforms ▸ (by cases form <;> decide)
    obtain ⟨⟨symbol, _⟩, hp, rfl⟩ := List.mem_map.mp hall
    obtain ⟨⟨hsymbol, -, hkind'⟩, hname'⟩ := hnamed _ hp
    -- there is one symbol of that name
    obtain ⟨rs, htable⟩ := hm.indexed
    obtain rfl : v = symbol := htable.eq_of_nameBytes hm.sound ((htable.mem_iff v).mpr ⟨hmem, hkind⟩)
      ((htable.mem_iff symbol).mpr ⟨hsymbol, hkind'⟩) (hbytes.trans hname'.symm)
    cases hlookup : m.keywords.specialForm? v with
    | none => exact absurd rfl (bne_iff_ne.mp (List.lookup_eq_none_iff.mp hlookup _ hp))
    | some other =>
      have hinjective : ∀ a b : SpecialForm, a.name = b.name → a = b := by
        intro a b
        cases a <;> cases b <;> decide
      exact congrArg some (hinjective _ _ (Text.toUTF8_injective ((hfound hlookup).2.symm.trans hname')))

theorem Reachable.specialForm_iff (hr : Reachable size m) :
    m.keywords.specialForm? v = some form ↔
      v ∈ m.heap.records ∧ m.heap.symbolName v = .ok form.name := by
  obtain ⟨m₀, ops, hstarts, hforms⟩ := exists_starts size
  exact hr.intact.specialForm_iff hr.lettered ((hr.comesFrom hstarts.run).keywords ▸ hforms)

theorem Intact.symbolName_named (hm : m.Intact) {p : Ref × String} (hp : p ∈ m.keywords.named) :
    m.heap.Permanent .symbol p.1 ∧ m.heap.symbolName p.1 = .ok p.2 := by
  obtain ⟨hp, hname⟩ := hm.named p hp
  exact ⟨hp, symbolName_eq_ok_iff.mpr ⟨hp.2.2, hname ▸ Text.decode_toUTF8 _⟩⟩

/-- What a machine of this size makes while it starts stays where it is, whatever its host does with
frames that are frames. Each record stands where it was made, these records come first, and no other
is pinned. So what is remembered of them is right, and special forms are told by their names. -/
theorem started_records_stay (hr : Reachable size m) :
    ∃ m₀ ops, Starts size ops m₀ ∧
      (∀ made rest, made ++ rest = ops →
        ∀ r ∈ (made.foldl HeapOp.apply (Heap.unfurnished size)).records,
          (made.foldl HeapOp.apply (Heap.unfurnished size)).memory.isPinned r = true ∧
            Lasts (made.foldl HeapOp.apply (Heap.unfurnished size)) r m.heap) ∧
      m₀.heap.records <+: m.heap.records ∧
      (∀ r ∈ m.heap.records, m.heap.memory.isPinned r = true ↔ r ∈ m₀.heap.records) ∧
      m.keywords = m₀.keywords ∧ m.globals = m₀.globals ∧ m.transformers = m₀.transformers ∧
      m.heap.Permanent .environment m.globals ∧ m.heap.Permanent .environment m.transformers ∧
      (∀ p ∈ m.keywords.named,
        m.heap.Permanent .symbol p.1 ∧ m.heap.symbolName p.1 = .ok p.2) ∧
      (∀ p ∈ fixtures, m.heap.Permanent p.2 p.1) ∧
      ∀ v form, m.keywords.specialForm? v = some form ↔
        v ∈ m.heap.records ∧ m.heap.symbolName v = .ok form.name := by
  obtain ⟨m₀, ops, hstarts, -⟩ := exists_starts size
  have hc := hr.comesFrom hstarts.run
  have hm := hr.intact
  have hfree : m₀.heap.pinning = false := by rw [hstarts.heap]
  -- all that there is at the end of the start is pinned
  have hall : ∀ r ∈ m₀.heap.records, m₀.heap.memory.isPinned r = true := by
    intro r hmem
    rw [hstarts.heap] at hmem ⊢
    exact (hstarts.lasts (List.append_nil ops) hmem).1
  have hpinned : ∀ r ∈ m.heap.records,
      m.heap.memory.isPinned r = true ↔ r ∈ m₀.heap.records := fun r hmem =>
    ⟨fun hpin => (hc.evolves.pinsNoMore hfree r hmem hpin).1,
      fun hin => (hc.evolves.pinned hin (hall r hin)).pinned.trans (hall r hin)⟩
  refine ⟨m₀, ops, hstarts, fun made rest hops r hmem => ?_, ?_, hpinned, hc.keywords, hc.globals,
    hc.transformers, hm.globals, hm.transformers, fun p hp => hm.symbolName_named hp, fun p hp => ?_,
    fun v form => hr.specialForm_iff⟩
  · obtain ⟨hpin, hlasts⟩ := hstarts.lasts hops hmem
    exact ⟨hpin, hlasts.trans (hc.evolves.pinned hlasts.mem (hlasts.pinned.trans hpin))⟩
  · refine prefix_of_increasing hc.evolves.sound_left.wf.tiled.pairwise_lt
      hm.sound.wf.tiled.pairwise_lt (fun r hin => (hc.evolves.pinned hin (hall r hin)).mem)
      fun r hin s hs hlt => ?_
    have hr := (hc.evolves.pinned hin (hall r hin)).mem
    exact (hpinned s hs).mp (hm.sound.pinned_before r hr s hs ((hpinned r hr).mpr hin) hlt)
  · obtain ⟨hmem, hkind, hpin⟩ := hm.sound.fixture p hp
    exact ⟨hmem, hpin, hkind⟩

/-- The smallest heap, which grows and collects while the machine starts, after one more text and a
collection. -/
theorem started_records_stay_smallest : ∃ m, Reachable 0 m ∧ ∃ m₀ ops, Starts 0 ops m₀ ∧
    m₀.heap.records <+: m.heap.records ∧
    ∀ v, m.keywords.specialForm? v = some .branch ↔
      v ∈ m.heap.records ∧ m.heap.symbolName v = .ok "if" := by
  obtain ⟨m, hstart, -⟩ := exists_start 0
  have hcall : (Call.evalText "(define x (cons 1 2))").Valid m :=
    ⟨(fun _ hr => nomatch hr), fun _ hr => nomatch hr⟩
  have hcollect : ∀ h, HeapOp.collect.Valid h := fun _ =>
    ⟨(fun _ hr => nomatch hr), (fun _ hr => nomatch hr), Nat.zero_le _⟩
  have hstarted : Reachable 0 m := .start hstart
  have hr := (hstarted.call 100 hcall).operate (hcollect _) fun _ hr => nomatch hr
  obtain ⟨m₀, ops, hstarts, -, hfirst, -, -, -, -, -, -, -, -, hforms⟩ := started_records_stay hr
  exact ⟨_, hr, m₀, ops, hstarts, hfirst, fun v => hforms v .branch⟩

end Machine

end ArenaScheme
