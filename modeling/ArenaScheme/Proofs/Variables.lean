import ArenaScheme.Proofs.Making
import ArenaScheme.Proofs.Scopes

/-! The values of variables. What a frame binds depends on nothing but the frame's own bindings, so
that moving records moves the values and every other step changes at most the value it is about. -/

namespace ArenaScheme

open Memory Heap

variable {b frame symbol value : Nat} {place : Nat → Nat} {kept : Nat → Prop}

namespace Heap

variable {rules : Rules} {h g : Heap} {f s v : Nat} {bs : List Nat} {all : Prop}
  {shown : Nat → Prop}

/-- The value of a symbol in a frame itself. -/
def bound (h : Heap) (f s : Nat) : Option Nat :=
  (h.findBinding f s).map (h.memory.field · 1)

theorem Scope.bound_eq_some_iff (hb : h.Scope f bs) (hs : h.Sound rules) (hf : f ∈ h.records)
    (hk : h.memory.kind f = .environment) :
    h.bound f s = some v ↔ ∃ b ∈ bs, h.memory.field b 0 = s ∧ h.memory.field b 1 = v := by
  simp only [bound, Option.map_eq_some_iff, hb.findBinding_eq_some_iff hs hf hk, and_assoc]

/-- What is not a record is not bound. -/
theorem Ranged.bound_eq_none (ht : h.Ranged all shown) (hs : h.Sound rules) (hf : f ∈ h.records)
    (hk : h.memory.kind f = .environment) (hshown : shown f) (hnot : s ∉ h.records) :
    h.bound f s = none := by
  obtain ⟨bs, hb⟩ := ht.scope f hf hk hshown
  refine Option.eq_none_iff_forall_ne_some.mpr fun v hv => ?_
  obtain ⟨b, hmem, rfl, -⟩ := (hb.bound_eq_some_iff hs hf hk).mp hv
  exact hnot (hs.binding_key_mem (hb.mem b hmem).1 (hb.mem b hmem).2)

/-- Values go where their records go. -/
theorem Ranged.bound_relocate (ht : h.Ranged all shown) (hs : h.Sound rules)
    (hr : h.Relocation kept place g) (hf : kept f) (hk : h.memory.kind f = .environment)
    (hshown : shown f) (hkept : kept s) :
    g.bound (place f) (place s) = (h.bound f s).map place ∧ ∀ v ∈ h.bound f s, kept v := by
  have hmem := hr.mem f hf
  obtain ⟨bs, hb⟩ := ht.scope f hmem hk hshown
  obtain ⟨hb', hall⟩ := hb.relocate hs hr hk hf
  have hfield : ∀ b ∈ bs, ∀ k < 2, kept (h.memory.field b k) ∧
      g.memory.field (place b) k = place (h.memory.field b k) := by
    intro b hmem k hlt
    obtain ⟨hrecord, hkind⟩ := hb.mem b hmem
    exact hr.kept_field hs.wf (hall b hmem) (mem_binding_references hkind (by omega))
      (hs.binding_field_mem hrecord hkind hlt)
  refine ⟨Option.ext fun w => ?_, fun v hv => ?_⟩
  · rw [hb'.bound_eq_some_iff (hs.relocate hr) (hr.mem_records hf)
      ((hr.record f hf).kind.trans hk), Option.map_eq_some_iff]
    constructor
    · rintro ⟨_, hmoved, hkey, hvalue⟩
      obtain ⟨b, hmem', rfl⟩ := List.mem_map.mp hmoved
      rw [(hfield b hmem' 0 (by decide)).2] at hkey
      rw [(hfield b hmem' 1 (by decide)).2] at hvalue
      exact ⟨_, (hb.bound_eq_some_iff hs hmem hk).mpr
        ⟨b, hmem', hr.injective (hfield b hmem' 0 (by decide)).1 hkept hkey, rfl⟩, hvalue⟩
    · rintro ⟨v, hv, rfl⟩
      obtain ⟨b, hmem', rfl, rfl⟩ := (hb.bound_eq_some_iff hs hmem hk).mp hv
      exact ⟨place b, List.mem_map_of_mem hmem', (hfield b hmem' 0 (by decide)).2,
        (hfield b hmem' 1 (by decide)).2⟩
  · obtain ⟨b, hmem', -, rfl⟩ := (hb.bound_eq_some_iff hs hmem hk).mp hv
    exact (hfield b hmem' 1 (by decide)).1

/-- Where no value changed, no variable did. -/
theorem KeepsScopes.bound (hkeeps : KeepsScopes h g) (ht : h.Ranged all shown) (hs : h.Sound rules)
    (hg : g.Sound rules) (hf : f ∈ h.records) (hk : h.memory.kind f = .environment) (hshown : shown f)
    (hvalue : ∀ b ∈ h.records, h.memory.kind b = .binding →
      g.memory.field b 1 = h.memory.field b 1) : g.bound f s = h.bound f s := by
  obtain ⟨bs, hb⟩ := ht.scope f hf hk hshown
  refine Option.ext fun w => ?_
  rw [hb.bound_eq_some_iff hs hf hk, (hkeeps.scope hs hg hb hf hk).bound_eq_some_iff hg
    (hkeeps.mem f hf) ((hkeeps.kind f hf).trans hk)]
  refine exists_congr fun b => and_congr_right fun hmem => ?_
  obtain ⟨hrecord, hkind⟩ := hb.mem b hmem
  rw [hkeeps.binding b hrecord hkind 0 (by decide) (by decide), hvalue b hrecord hkind]

theorem SameScopes.bound_fresh {r : Nat} (hsame : SameScopes h g) (hg : g.Sound rules)
    (hr : r ∈ g.records) (hnot : r ∉ h.records) (hk : g.memory.kind r = .environment) :
    g.bound r s = none := by
  refine Option.eq_none_iff_forall_ne_some.mpr fun v hv => ?_
  obtain ⟨b, hmem, -⟩ := ((hsame.scope_fresh hr hnot hk).bound_eq_some_iff hg hr hk).mp hv
  cases hmem

/-- Another value for the binding of a symbol in a frame. -/
theorem Ranged.bound_setField {f' s' : Nat} {m : Memory} (ht : h.Ranged all shown) (hs : h.Sound rules)
    (hg : { h with memory := m }.Sound rules) (hf : f ∈ h.records)
    (hk : h.memory.kind f = .environment) (hshown : shown f) (hfind : h.findBinding f s = some b)
    (hm : FieldSet h.records h.memory b 1 v m) (hf' : f' ∈ h.records)
    (hk' : h.memory.kind f' = .environment) (hshown' : shown f') :
    { h with memory := m }.bound f' s' = if f' = f ∧ s' = s then some v else h.bound f' s' := by
  obtain ⟨bs, hb⟩ := ht.scope f hf hk hshown
  obtain ⟨cs, hc⟩ := ht.scope f' hf' hk' hshown'
  obtain ⟨hmem, hkey⟩ := (hb.findBinding_eq_some_iff hs hf hk).mp hfind
  obtain ⟨hrecord, hkind⟩ := hb.mem b hmem
  have hsame : SameScopes h { h with memory := m } := hs.sameScopes_setField hm
    (by rw [hkind]; decide) (fun _ => rfl) fun hsymbol => by rw [hkind] at hsymbol; cases hsymbol
  have hc' := hsame.scope hs hg hc hf' hk'
  have hother : ∀ c ∈ cs, c ≠ b → m.field c 1 = h.memory.field c 1 := fun c hmem hne =>
    hm.field (hc.mem c hmem).1 (fun heq => absurd heq hne)
      (field_end_le_extent (mem_binding_references (hc.mem c hmem).2 (by decide)))
  have hkeys : ∀ c ∈ cs, m.field c 0 = h.memory.field c 0 := fun c hmem =>
    hsame.binding c (hc.mem c hmem).1 (hc.mem c hmem).2 0 (by decide) (by decide)
  refine Option.ext fun w => ?_
  rw [hc'.bound_eq_some_iff hg (hsame.mem f' hf') ((hsame.kind f' hf').trans hk')]
  change (∃ c ∈ cs, m.field c 0 = s' ∧ m.field c 1 = w) ↔ _
  by_cases hboth : f' = f ∧ s' = s
  · obtain ⟨rfl, rfl⟩ := hboth
    obtain rfl := hb.unique hc
    rw [if_pos ⟨rfl, rfl⟩, Option.some_inj]
    constructor
    · rintro ⟨c, hmem', hkey', hvalue⟩
      rw [hkeys c hmem'] at hkey'
      have hsame' := (hb.findBinding_eq_some_iff hs hf hk).mpr ⟨hmem', hkey'⟩
      rw [hfind] at hsame'
      cases hsame'
      exact hm.self.symm.trans hvalue
    · rintro rfl
      exact ⟨b, hmem, (hkeys b hmem).trans hkey, hm.self⟩
  · rw [if_neg hboth, hc.bound_eq_some_iff hs hf' hk']
    refine exists_congr fun c => and_congr_right fun hmem' => ?_
    rw [hkeys c hmem']
    refine and_congr_right fun hkey' => ?_
    rw [hother c hmem']
    rintro rfl
    -- Only this frame has the binding, and it binds this symbol.
    refine hboth ⟨Decidable.byContradiction fun hne => ?_, hkey'.symm.trans hkey⟩
    exact ht.apart f hf f' hf' hk hk' hshown hshown' (fun heq => hne heq.symm) bs cs hb hc c hmem
      hmem'

/-- A new binding gives its symbol a value in its frame. -/
theorem BindingAdded.bound (ha : h.BindingAdded rules frame symbol value g)
    (hrules : rules.table ≠ some frame) (ht : h.Ranged all shown) (hs : h.Sound rules)
    (hg : g.Sound rules) (hframe : shown frame) (hf : f ∈ h.records)
    (hk : h.memory.kind f = .environment) (hshown : shown f) :
    g.bound f s = if f = frame ∧ s = symbol then some value else h.bound f s := by
  obtain ⟨bs, hb⟩ := ht.scope frame ha.frame_mem ha.frame_kind hframe
  obtain ⟨cs, hc⟩ := ht.scope f hf hk hshown
  obtain ⟨node, side, hp, -, hwhere⟩ := ha.put hs (ha.symbol_kind hrules) hb
  have hfields : ∀ b ∈ h.records, h.memory.kind b = .binding →
      g.memory.field b 0 = h.memory.field b 0 ∧ g.memory.field b 1 = h.memory.field b 1 := by
    intro b hmem hkind
    have hside : b = node → 2 ≤ side := fun heq => by
      rcases hwhere with ⟨hframe, -⟩ | ⟨-, hside⟩
      · rw [heq, hframe, ha.frame_kind] at hkind
        cases hkind
      · omega
    refine ⟨hp.field b hmem 0 (mem_binding_references hkind (by decide)) fun heq => ?_,
      hp.field b hmem 1 (mem_binding_references hkind (by decide)) fun heq => ?_⟩ <;>
    · have := hside heq
      omega
  have hgf := hp.mem hf
  have hgk := (hp.kind hf).trans hk
  have hold : ∀ b ∈ cs, g.memory.field b 0 = h.memory.field b 0 ∧
      g.memory.field b 1 = h.memory.field b 1 := fun b hmem =>
    hfields b (hc.mem b hmem).1 (hc.mem b hmem).2
  refine Option.ext fun w => ?_
  by_cases hsame : f = frame
  · subst hsame
    obtain rfl := hb.unique hc
    obtain ⟨as, ds, rfl, hself⟩ := ha.scope_self hrules hs hg hb
    rw [hself.bound_eq_some_iff hg hgf hgk]
    have hsplit : (∃ b ∈ as ++ h.top :: ds, g.memory.field b 0 = s ∧ g.memory.field b 1 = w) ↔
        (symbol = s ∧ value = w) ∨ h.bound f s = some w := by
      rw [hb.bound_eq_some_iff hs hf hk]
      constructor
      · rintro ⟨b, hmem, hkey, hvalue⟩
        rcases mem_inserted.mp hmem with hmem | rfl
        · rw [(hold b hmem).1] at hkey
          rw [(hold b hmem).2] at hvalue
          exact Or.inr ⟨b, hmem, hkey, hvalue⟩
        · exact Or.inl ⟨hp.new_symbol.symm.trans hkey, hp.new_value.symm.trans hvalue⟩
      · rintro (⟨rfl, rfl⟩ | ⟨b, hmem, hkey, hvalue⟩)
        · exact ⟨h.top, mem_inserted.mpr (Or.inr rfl), hp.new_symbol, hp.new_value⟩
        · exact ⟨b, mem_inserted.mpr (Or.inl hmem), (hold b hmem).1.trans hkey,
            (hold b hmem).2.trans hvalue⟩
    rw [hsplit]
    by_cases hsymbol : s = symbol
    · subst hsymbol
      rw [if_pos ⟨rfl, rfl⟩, Option.some_inj]
      refine ⟨fun hcase => hcase.elim And.right fun hbound => ?_, fun heq => Or.inl ⟨rfl, heq⟩⟩
      rw [Heap.bound, ha.missing (ha.symbol_kind hrules) hb.bindsSymbols] at hbound
      cases hbound
    · rw [if_neg fun hboth => hsymbol hboth.2]
      exact or_iff_right fun hboth => hsymbol hboth.1.symm
  · rw [if_neg fun hboth => hsame hboth.1, hc.bound_eq_some_iff hs hf hk,
      (ha.scope_other hrules hs hg ht hframe hc hf hk hshown hsame).bound_eq_some_iff hg hgf hgk]
    refine exists_congr fun b => and_congr_right fun hmem => ?_
    rw [(hold b hmem).1, (hold b hmem).2]

theorem BindingAdded.top_eq (ha : h.BindingAdded rules frame symbol value g) :
    g.top = h.top + fieldsSize 4 := by
  obtain ⟨m, -, ⟨_, _⟩⟩ := ha.added
  rfl

/-- Another value for a binding keeps the heap sound. -/
theorem Sound.setBinding (hs : h.Sound rules) (hb : b ∈ h.records) (hk : h.memory.kind b = .binding)
    (hv : v ∈ h.records) :
    ∃ m, HeapM.setLooseField b 1 v h = .ok () { h with memory := m } ∧
      FieldSet h.records h.memory b 1 v m ∧ { h with memory := m }.Sound rules := by
  have hmem : 1 ∈ h.memory.referenceFields b := mem_binding_references hk (by decide)
  have hset := fieldSet_setField hs.wf.tiled hs.wf.top_le hb (Or.inl hmem)
    (Nat.lt_trans (hs.wf.lt_top hv) hs.wf.top_lt)
  refine ⟨_, ?_, hset, hs.setField hset fun _ => Or.inr ⟨hv, ?_⟩⟩
  · rw [HeapM.setLooseField_eq v (hs.fieldAddress_lt hb (field_end_le_extent hmem))]
    rfl
  · rw [hk]
    trivial

/-- What is found in a frame is a binding. -/
theorem Sound.findBinding_mem (hs : h.Sound rules) (hf : f ∈ h.records)
    (hk : h.memory.kind f = .environment) (hr : s ∈ h.records)
    (hsymbol : rules.table = none → h.memory.kind s = .symbol)
    (hfind : h.findBinding f s = some b) :
    b ∈ h.records ∧ h.memory.kind b = .binding := by
  have hfound := (Corr.diagonal hs fun _ => True).findBinding
    (Or.inr View.single_diagonal) (View.diagonal_rel hf) hk (View.diagonal_rel hr) hsymbol
  change Option.Rel _ (h.findBinding f s) (h.findBinding f s) at hfound
  rw [hfind] at hfound
  cases hfound with
  | some hb => exact ⟨hb.1.1.1, hb.2⟩

end Heap

/-- How binding a symbol in a frame ends. -/
inductive Heap.Binds (rules : Rules) (h : Heap) (frame symbol value : Nat) :
    EStateM.Result Fault Heap Unit → Prop
  | updated {b : Nat} {m : Memory} : h.findBinding frame symbol = some b → b ∈ h.records →
    h.memory.kind b = .binding → FieldSet h.records h.memory b 1 value m →
    { h with memory := m }.Sound rules → Binds rules h frame symbol value (.ok () { h with memory := m })
  | added {kept : Nat → Prop} {place : Nat → Nat} {k g : Heap} : h.Relocation kept place k →
    (∀ r ∈ [frame, symbol, value], kept r) →
    k.BindingAdded rules (place frame) (place symbol) (place value) g → g.Sound rules →
    Binds rules h frame symbol value (.ok () g)
  | exhausted {kept : Nat → Prop} {place : Nat → Nat} {k : Heap} : h.Relocation kept place k →
    maxSize < k.top + fieldsSize 4 →
    Binds rules h frame symbol value (.error (.heapExhausted (fieldsSize 4)) k)

namespace HeapM

variable {rules : Rules} {h : Heap} {frame symbol value : Nat}

/-- Once there is room, a symbol gets its binding. -/
theorem binds_new {k : Heap} (hs : h.Sound rules) (hr : h.Relocation kept place k)
    (hkept : ∀ r ∈ [frame, symbol, value], kept r) (hframe : h.memory.kind frame = .environment)
    (htable : rules.table = some frame → h.memory.isPinned frame = true)
    (hsymbol : rules.table ≠ some frame → h.Bindable symbol)
    (hnone : h.findBinding frame symbol = none) (hfit : k.top + fieldsSize 4 ≤ k.capacity) :
    h.Binds rules frame symbol value
      ((put .binding (fieldsSize 4) [place symbol, place value, absent, absent] [] >>= fun r =>
        hangBinding (place frame) (place symbol) r) k) := by
  have hk := hs.relocate hr
  have hkeptf := hkept frame (by simp)
  have hkepts := hkept symbol (by simp)
  have hkeptv := hkept value (by simp)
  have hbindable : rules.table ≠ some (place frame) → k.Bindable (place symbol) := fun hne =>
    (hsymbol fun heq => hne (by
      rw [hs.place_pinned hr (hr.mem frame hkeptf) (htable heq), heq])).matched
        (hr.record symbol hkepts)
  have hkey : rules.table = none → k.memory.kind (place symbol) = .symbol := fun hnone =>
    (hbindable (by rw [hnone]; exact fun heq => nomatch heq)).kind
  have hmissing := hr.findBinding_eq_none hs hkeptf hframe hkepts hnone
  have hshape : Shape .binding [place symbol, place value, absent, absent] [] (fieldsSize 4)
      (List.range 4) := .of_front rfl rfl (Nat.le_refl _)
  have hm := hk.pushed hshape hfit fun i hi x hx => by
    match i, hi with
    | 0, _ =>
      cases hx
      exact Or.inr ⟨hr.mem_records hkepts, hkey⟩
    | 1, _ =>
      cases hx
      exact Or.inr ⟨hr.mem_records hkeptv, trivial⟩
    | 2, _ | 3, _ =>
      cases hx
      exact Or.inl ⟨rfl, rfl⟩
    | i + 4, hi => exact absurd (List.mem_range.mp hi) (by omega)
  rw [put_bind]
  generalize k.written _ _ _ = m at hm ⊢
  have hlasts : ∀ r ∈ k.records, k.Lasts r { k with memory := m, top := k.top + fieldsSize 4 } :=
    fun r hr => hm.lasts hk.wf hr
  have hz := Corr.diagonal (hm.sound hk) fun _ => True
  have hmem : k.top ∈ { k with memory := m, top := k.top + fieldsSize 4 }.records := by
    rw [hm.records hk.wf]
    simp
  have hlf := hlasts _ (hr.mem_records hkeptf)
  have hls := hlasts _ (hr.mem_records hkepts)
  obtain ⟨w, hrun, -, hw, hterms, -, hhung, -⟩ := hz.hangBinding
    (Or.inr View.single_diagonal) (View.diagonal_rel hlf.mem)
    (hlf.kind.trans ((hr.record frame hkeptf).kind.trans hframe)) (View.diagonal_rel hls.mem)
    (fun hrules => hls.kind.trans (hkey hrules)) (View.diagonal_rel hmem) hm.written.kind (hm.fresh hk)
    (hk.wf.lt_top (hr.mem_records hkeptf))
  change h.Binds rules frame symbol value (hangBinding (place frame) (place symbol) k.top
    (View.diagonal rules (fun _ => True)
      { k with memory := m, top := k.top + fieldsSize 4 }).left)
  rw [hrun]
  have hstrict : w.rules = rules := hterms.rules
  exact .added hr hkept ⟨hr.mem_records hkeptf, (hr.record frame hkeptf).kind.trans hframe,
    hr.mem_records hkepts, hbindable, hr.mem_records hkeptv, hmissing, m, hm, hhung⟩
    (hstrict ▸ hw.left)

theorem binds (hs : h.Sound rules) (hframe : frame ∈ h.records)
    (hk : h.memory.kind frame = .environment)
    (htable : rules.table = some frame → h.memory.isPinned frame = true)
    (hsymbol : symbol ∈ h.records) (hbindable : rules.table ≠ some frame → h.Bindable symbol)
    (hvalue : value ∈ h.records) :
    h.Binds rules frame symbol value (putBinding frame symbol value h) := by
  unfold putBinding
  rw [get_bind]
  cases hfind : h.findBinding frame symbol with
  | some b =>
    obtain ⟨hmem, hbinding⟩ := hs.findBinding_mem hframe hk hsymbol
      (fun hrules => (hbindable (by rw [hrules]; exact fun heq => nomatch heq)).kind) hfind
    obtain ⟨m, hrun, hset, hsound⟩ := hs.setBinding hmem hbinding hvalue
    simp only
    rw [hrun]
    exact .updated hfind hmem hbinding hset hsound
  | none =>
    simp only
    rw [allocate_bind (fun kept => [kept[1], kept[2], absent, absent]) []]
    rotate_left
    · exact fun _ _ => rfl
    have hrefs : ∀ r ∈ #v[frame, symbol, value], r ∈ h.records := by
      intro r hr
      have : r = frame ∨ r = symbol ∨ r = value := by simpa using hr
      rcases this with rfl | rfl | rfl <;> assumption
    obtain ⟨_, live, place, k, -, hr, hlive, ⟨-, hok, hfit⟩ | ⟨hgt, rfl, herror⟩⟩ :=
      room_spec (fieldsSize 4) hs.wf hs.capacity_pos hrefs
    · have hkept : ∀ r ∈ [frame, symbol, value], live r := fun r hmem =>
        hlive r (by simpa using hmem)
      have hwhere : (#v[frame, symbol, value].map place) =
          #v[place frame, place symbol, place value] := by simp
      rw [bind_ok hok, hwhere]
      exact binds_new hs hr hkept hk htable hbindable hfind hfit
    · simp only [bind, EStateM.bind, herror]
      exact .exhausted hr hgt

/-- What `define` checks before it binds. -/
theorem define_run (frame symbol value : Ref) (h : Heap) :
    define frame symbol value h =
      match h.symbolName symbol with
      | .error fault => .error fault h
      | .ok name =>
        if isReserved name then .error (.reservedName name) h
        else
          match h.expectFrame frame with
          | .error fault => .error fault h
          | .ok () => putBinding frame symbol value h := by
  unfold define query
  cases hname : h.symbolName symbol with
  | error fault => simp only [bind, EStateM.bind, hname]
  | ok name =>
    by_cases hreserved : isReserved name = true
    · simp only [bind, EStateM.bind, hname, if_pos hreserved]
      rfl
    · cases hexpect : h.expectFrame frame <;>
        simp only [bind, EStateM.bind, hname, if_neg hreserved, hexpect]

end HeapM

end ArenaScheme
