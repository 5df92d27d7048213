import ArenaScheme.Proofs.Machines

/-! Reserved names are not bound. Of all frames only the one of the transformers can come to bind
another record than a symbol that is not reserved, and only where a definition of a transformer is
expanded that running code can reach as well. -/

namespace ArenaScheme

open Memory Heap

namespace Machine

variable {m : Machine} {size : UInt32}

/-- The machines of a host that adds no procedures, and that has a definition of a transformer
expanded only if nothing else leads to it. -/
inductive Confined (size : UInt32) : Machine → Prop
  | start {m : Machine} : Machine.start size.toNat = .ok m → Confined size m
  | call {m : Machine} {call : Call} (fuel : Nat) : Confined size m → call.Valid m → call.Apart m →
    Confined size (m.after (call.run (interpreter fuel)))
  | read {m : Machine} (failAtEnd : Bool) (tokens : List Token) : Confined size m →
    Confined size (m.after (Session.read failAtEnd tokens))
  | operate {m : Machine} {op : HeapOp} : Confined size m → op.Valid m.heap →
    (∀ r ∈ op.captured, m.heap.memory.kind r = .environment) →
    Confined size { m with heap := op.apply m.heap }
  | trace {m : Machine} (tracing : Bool) : Confined size m → Confined size { m with tracing }
  | flush {m : Machine} : Confined size m → Confined size { m with output := "" }

/-- The machine with the strict rules, beside itself. -/
abbrev strictView (m : Machine) : View := View.diagonal Rules.strict (fun _ => True) m.heap

/-- The machine keeps the strict rules, and all its trees are in order. -/
structure Strict (m : Machine) : Prop where
  sound : m.heap.Sound Rules.strict
  tidy : m.heap.Tidy
  closed : m.hostProcedures = #[]
  globals : m.heap.Permanent .environment m.globals
  transformers : m.heap.Permanent .environment m.transformers
  keywords : ∀ r ∈ m.keywords.symbols, m.heap.Permanent .symbol r

theorem Strict.stands (hm : m.Strict) : Stands Effect.Tame m m.strictView where
  toCorr := Corr.diagonal hm.sound _
  ordered := .of_none rfl
  closures := rfl
  loose _ ht := nomatch ht
  closed _ := hm.closed
  may _ _ := trivial
  globals := hm.globals
  transformers := hm.transformers
  keywords := hm.keywords
  orderly hloose := absurd rfl hloose

theorem Strict.evolve {n : Nat} {may : Effect → Prop} {g : Heap} {out : String} (hm : m.Strict)
    (he : Evolves Rules.strict n may m.heap g) : (m.on g out).Strict := by
  exact ⟨he.sound_right, he.tidy rfl hm.tidy, hm.closed, he.permanent hm.globals,
    he.permanent hm.transformers, fun r hr => he.permanent (hm.keywords r hr)⟩

theorem Strict.after {n : Nat} {α β : Type} {post : View → α → β → Prop} {x : Eval α} {y : Eval β}
    (hm : m.Strict) (h : Runs n m m.strictView post x y) : (m.after x).Strict := by
  obtain ⟨hevolves, hsame⟩ := evolves_of_runs h
  rw [hsame]
  exact hm.evolve hevolves

theorem strict_start (h : start size.toNat = .ok m) : m.Strict := by
  have hle : size.toNat ≤ maxSize := Nat.le_of_lt_succ size.toNat_lt
  obtain ⟨k, v, hk, hfree, hrules, hequipped, hstart, -⟩ := start_alike hle hle
  rw [hstart] at h
  obtain rfl := Except.ok.inj h
  have hsound := hk.left
  rw [hrules] at hsound
  exact ⟨hsound, hequipped.tidy, hk.closed (congrArg Rules.table hrules), hk.globals,
    hk.transformers, hk.keywords⟩

/-- All frames but the one of the transformers are in order, whatever that one binds. -/
theorem Reachable.ranged (hr : Reachable size m) :
    m.heap.Ranged False (· ≠ m.transformers) := by
  refine hr.invariant (P := fun m => m.heap.Ranged False (· ≠ m.transformers))
    (fun _ h => (strict_start h).tidy.mono False.elim fun _ _ => trivial)
    fun _ _ k k' hk he hsame ht => ?_
  rw [hsame]
  exact he.ranged_outside (fun t ht => (Option.some.inj ht).symm) hk.transformers.1
    hk.transformers.2.1 hk.fenced ht

theorem Confined.strict (hc : Confined size m) : m.Strict := by
  induction hc with
  | start h => exact strict_start h
  | call fuel _ hcall hapart ih => 
    exact ih.after
      (Call.runs (alike_builtins trivial) trivial ih.stands hcall (fun _ => hapart) fuel)
  | read failAtEnd tokens _ ih => exact ih.after (Runs.read ih.stands rfl failAtEnd tokens)
  | operate _ hop hcaptured ih =>
    exact ih.evolve (HeapOp.evolves_under ih.sound (.of_none rfl) (fun _ => hcaptured) hop)
  | trace _ _ ih =>
    exact ⟨ih.sound, ih.tidy, ih.closed, ih.globals, ih.transformers, ih.keywords⟩
  | flush _ ih =>
    exact ⟨ih.sound, ih.tidy, ih.closed, ih.globals, ih.transformers, ih.keywords⟩

end Machine

/-- In every machine, all frames but the one of the transformers bind symbols that are not
reserved, and nothing else. As long as a host adds no procedures and gives no definition of a
transformer away that something else leads to, so does every binding. -/
theorem reserved_names_unbound (size : UInt32) (m : Machine) :
    (Machine.Reachable size m → ∀ frame ∈ m.heap.records,
      m.heap.memory.kind frame = .environment → frame ≠ m.transformers →
      ∀ b, m.heap.Hangs frame b → m.heap.Bindable (m.heap.memory.field b 0)) ∧
    (Machine.Confined size m → ∀ b ∈ m.heap.records, m.heap.memory.kind b = .binding →
      m.heap.Bindable (m.heap.memory.field b 0)) := by
  refine ⟨fun hr frame hframe hk hne b hb => ?_, fun hc => hc.strict.tidy.bindable trivial⟩
  obtain ⟨own, hfenced⟩ := hr.intact.fenced
  exact hfenced.bindable hr.intact.sound hframe hk hne hb

/-- A binding in a frame that was empty hangs there. -/
theorem exists_hangs_of_define {h : Heap} {frame symbol value : Nat} (hs : h.Sound Rules.strict)
    (hframe : frame ∈ h.records) (hk : h.memory.kind frame = .environment)
    (hempty : h.memory.field frame 1 = absent) (hsymbol : symbol ∈ h.records)
    (hb : h.Bindable symbol) (hvalue : value ∈ h.records) (hroom : h.top + fieldsSize 4 ≤ maxSize) :
    ∃ g f b, HeapM.define frame symbol value h = .ok () g ∧ f ∈ g.records ∧
      g.memory.kind f = .environment ∧ g.Hangs f b ∧
      ∀ p ∈ h.records, h.memory.isPinned p = true → p ≠ frame → f ≠ p := by
  have hexpect : h.expectFrame frame = .ok () := by
    unfold expectFrame expectKind
    exact if_pos hk
  have hbinds := HeapM.binds hs hframe hk (fun ht => nomatch ht) hsymbol (fun _ => hb) hvalue
  have hrun : HeapM.define frame symbol value h = HeapM.putBinding frame symbol value h := by
    rw [HeapM.define_run, symbolName_eq_ok_iff.mpr ⟨hb.kind, rfl⟩]
    simp only [hb.free, hexpect, Bool.false_eq_true, if_false]
  rw [hrun]
  generalize HeapM.putBinding frame symbol value h = result at hbinds ⊢
  cases hbinds with
  | updated hfind _ _ _ _ =>
    unfold findBinding at hfind
    rw [hs.looseField_eq hframe (field_end_le_extent (by rw [environment_references hk]; decide)),
      hempty, Corr.findBindingFrom_absent] at hfind
    cases hfind
  | @added kept place k g hr hkept hadded hg =>
    have hkeptFrame := hkept frame (.head _)
    have hfield : k.memory.field (place frame) 1 = absent := by
      rcases (hr.record frame hkeptFrame).reference 1
        (by rw [environment_references hk]; decide) with ⟨-, habs⟩ | ⟨hkept', -⟩
      · exact habs
      · exact absurd (hempty ▸ hr.mem _ hkept') (fun hmem => hs.wf.ne_absent hmem rfl)
    have hscope : k.Scope (place frame) [] :=
      ⟨hfield ▸ .empty, .nil, (fun _ hb => nomatch hb), fun _ hb => nomatch hb⟩
    obtain ⟨node, side, hp, -, hwhere⟩ := hadded.put (hs.relocate hr)
      (hadded.bindable fun ht => nomatch ht).kind hscope
    obtain ⟨rfl, rfl⟩ := hwhere.resolve_right fun hin => nomatch hin.1
    have hlink : g.memory.field (place frame) 1 ≠ absent := by
      rw [hp.link]
      exact hg.wf.ne_absent (by rw [hp.records]; simp)
    refine ⟨g, place frame, _, rfl, hp.mem hadded.frame_mem,
      (hp.kind hadded.frame_mem).trans hadded.frame_kind, .root hlink, fun p hmem hpinned hne heq => ?_⟩
    have hplace := hs.place_pinned hr hmem hpinned
    exact hne (hr.injective (hr.pinned p hmem hpinned) hkeptFrame (hplace.trans heq.symm))
  | exhausted hr hgt =>
    have := hr.top_le
    omega

/-- A new frame is empty, and it is none of the pinned records. -/
theorem exists_empty_frame {h : Heap} (hs : h.Sound Rules.strict)
    (hroom : h.top + fieldsSize 2 ≤ maxSize) :
    ∃ f g, HeapM.environment none h = .ok f g ∧ g.top ≤ h.top + fieldsSize 2 ∧ f ∈ g.records ∧
      g.memory.kind f = .environment ∧ g.memory.field f 1 = absent ∧
      ∀ p ∈ h.records, h.memory.isPinned p = true → p ≠ f := by
  have hmakes := @HeapM.makes_environment _ _ hs none fun r hr => nomatch hr
  obtain ⟨f, g, hrun, htop⟩ := hmakes.exists_ok hroom
  rw [hrun] at hmakes
  cases hmakes with
  | @ok kept place k m hr _ hm =>
    have hsk := hs.relocate hr
    refine ⟨_, _, hrun, htop, by rw [hm.records hsk.wf]; simp, hm.written.kind,
      hm.field_environment hsk, fun p hp hpinned heq => ?_⟩
    have hmem : place p ∈ k.records := hr.mem_records (hr.pinned p hp hpinned)
    rw [hs.place_pinned hr hp hpinned] at hmem
    exact absurd (hsk.wf.lt_top hmem) (Nat.not_lt_of_le (Nat.le_of_eq heq.symm))

/-- A machine with a new frame that binds the symbol of a dot. -/
theorem reserved_names_unbound_sample :
    ∃ m frame b, Machine.Reachable 0 m ∧ Machine.Confined 0 m ∧ frame ∈ m.heap.records ∧
      m.heap.memory.kind frame = .environment ∧ frame ≠ m.transformers ∧ m.heap.Hangs frame b ∧
      b ∈ m.heap.records ∧ m.heap.memory.kind b = .binding ∧
      m.heap.Bindable (m.heap.memory.field b 0) := by
  obtain ⟨m, hstart, -, htop⟩ := Machine.exists_start 0
  have hcost : 20 + furnishCost + fieldsSize 2 + fieldsSize 4 ≤ maxSize := by decide
  have hr : Machine.Reachable 0 m := .start hstart
  have hc : Machine.Confined 0 m := .start hstart
  -- the new frame
  obtain ⟨f, h₁, hrun₁, htop₁, hf, hk, hempty, hfresh⟩ :=
    exists_empty_frame hc.strict.sound (by omega)
  have happly₁ : (HeapOp.environment none).apply m.heap = h₁ := by
    change m.heap.after (HeapM.environment none) = h₁
    rw [Heap.after, hrun₁]
  have hvalid₁ : (HeapOp.environment none).Valid m.heap :=
    ⟨List.forall_mem_nil _, List.forall_mem_nil _, Nat.zero_le _⟩
  have hr₁ := hr.operate hvalid₁ (List.forall_mem_nil _)
  have hc₁ := hc.operate hvalid₁ (List.forall_mem_nil _)
  rw [happly₁] at hr₁ hc₁
  -- the binding in it
  have hs₁ : h₁.Sound Rules.strict := hc₁.strict.sound
  obtain ⟨hdot, hname⟩ := hr₁.intact.named (m.keywords.dot, ".") (by simp [Keywords.named])
  have hbindable : h₁.Bindable m.keywords.dot := by
    refine ⟨hdot.2.2, ?_⟩
    rw [show h₁.nameBytes m.keywords.dot = ".".toUTF8.toList from hname, Text.decode_toUTF8]
    decide
  have hnull : Heap.null ∈ h₁.records := (hs₁.fixture (Heap.null, .null) (.head _)).1
  obtain ⟨h₂, frame, b, hrun₂, hframe, hkind, hhangs, hother⟩ := exists_hangs_of_define
    hs₁ hf hk hempty hdot.1 hbindable hnull (by omega)
  have happly₂ : (HeapOp.define f m.keywords.dot Heap.null).apply h₁ = h₂ := by
    change h₁.after (HeapM.define f m.keywords.dot Heap.null) = h₂
    rw [Heap.after, hrun₂]
  have hvalid₂ : (HeapOp.define f m.keywords.dot Heap.null).Valid h₁ := by
    refine ⟨fun r hr => ?_, List.forall_mem_nil _, Nat.zero_le _⟩
    simp only [HeapOp.refs, List.mem_cons, List.not_mem_nil, or_false] at hr
    rcases hr with rfl | rfl | rfl
    · exact hf
    · exact hdot.1
    · exact hnull
  have hr₂ := hr₁.operate hvalid₂ (List.forall_mem_nil _)
  have hc₂ := hc₁.operate hvalid₂ (List.forall_mem_nil _)
  rw [happly₂] at hr₂ hc₂
  have htable := hr₁.intact.transformers
  have hne : frame ≠ m.transformers := hother _ htable.1 htable.2.1
    (hfresh _ hc.strict.transformers.1 hc.strict.transformers.2.1)
  obtain ⟨hb, hbk⟩ := hhangs.binding hr₂.intact.sound hframe hkind
  obtain ⟨hall, -⟩ := reserved_names_unbound 0 _
  exact ⟨_, frame, b, hr₂, hc₂, hframe, hkind, hne, hhangs, hb, hbk,
    hall hr₂ frame hframe hkind hne b hhangs⟩

end ArenaScheme
