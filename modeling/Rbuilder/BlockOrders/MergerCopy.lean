/-
  What a cloned merger refers to.

  Its managers are new cells with the same content, but for the sink. Its ids lead to the
  managers of the merger that was cloned: those ids that are in one of them.
-/
import Rbuilder.BlockOrders.PlainMerger

namespace BlockOrders.Merging

open SparseMpt
open Building (OrderId)
open Function ShareBundleMerger List AList

/-- New managers were added, with the orders of others. -/
structure World.Extends (w w' : World) : Prop where
  sinks : w'.sinks = w.sinks
  managers : ∃ added, w'.managers = w.managers ++ added
  orders : ∀ manager ∈ w'.managers, ∃ manager₀ ∈ w.managers,
    manager.orderKickbacks = manager₀.orderKickbacks ∧ manager.sortedOrders = manager₀.sortedOrders

namespace World.Extends

variable {w w' w'' : World}

theorem refl (w : World) : w.Extends w :=
  ⟨rfl, ⟨[], (append_nil _).symm⟩, fun manager hmem => ⟨manager, hmem, rfl, rfl⟩⟩

theorem trans (h : w.Extends w') (h' : w'.Extends w'') : w.Extends w'' := by
  obtain ⟨added, hadded⟩ := h.managers
  obtain ⟨added', hadded'⟩ := h'.managers
  refine ⟨h'.sinks.trans h.sinks, ⟨added ++ added', by rw [hadded', hadded, append_assoc]⟩,
    fun manager hmem => ?_⟩
  obtain ⟨manager', hmem', hkickbacks', hsorted'⟩ := h'.orders manager hmem
  obtain ⟨manager₀, hmem₀, hkickbacks, hsorted⟩ := h.orders manager' hmem'
  exact ⟨manager₀, hmem₀, hkickbacks'.trans hkickbacks, hsorted'.trans hsorted⟩

variable {pointer : Nat} {manager : MultiBackrunManager}

theorem alloc (hcell : w.managers[pointer]? = some manager) (sink : Nat) :
    w.Extends (w.alloc (manager.cloneWithSink sink)) := by
  refine ⟨rfl, ⟨[_], rfl⟩, fun manager' hmem => ?_⟩
  rcases mem_append.mp hmem with hmem | hmem
  · exact ⟨manager', hmem, rfl, rfl⟩
  · rw [mem_singleton.mp hmem]
    exact ⟨manager, mem_of_getElem? hcell, rfl, rfl⟩

theorem getElem? (h : w.Extends w') (hlt : pointer < w.managers.length) :
    w'.managers[pointer]? = w.managers[pointer]? := by
  obtain ⟨added, hadded⟩ := h.managers
  rw [hadded, getElem?_append_left hlt]

theorem getElem?_eq_some (h : w.Extends w')
    (hcell : w.managers[pointer]? = some manager) : w'.managers[pointer]? = some manager :=
  (h.getElem? (List.getElem?_eq_some_iff.mp hcell).1).trans hcell

theorem length_le (h : w.Extends w') : w.managers.length ≤ w'.managers.length := by
  obtain ⟨added, hadded⟩ := h.managers
  rw [hadded, length_append]
  exact Nat.le_add_right ..

end World.Extends

/-- An order of the manager has the id. -/
def MultiBackrunManager.HasId (manager : MultiBackrunManager) (id : OrderId) : Prop :=
  ∃ entry ∈ manager.sortedOrders.entries, entry.1.orderId = id

theorem lookup_foldl_insert (entries : List (SortKey × BrokenDownShareBundle)) (pointer : Nat)
    (ids : AList fun _ : OrderId => Nat) (id : OrderId) :
    (entries.foldl (fun ids order => ids.insert order.1.orderId pointer) ids).lookup id =
      if ∃ entry ∈ entries, entry.1.orderId = id then some pointer else ids.lookup id := by
  induction entries generalizing ids with
  | nil => simp
  | cons entry entries ih =>
    rw [foldl_cons, ih]
    by_cases hrest : ∃ entry ∈ entries, entry.1.orderId = id
    · rw [if_pos hrest, if_pos (hrest.imp fun _ h => ⟨mem_cons_of_mem _ h.1, h.2⟩)]
    rw [if_neg hrest]
    by_cases hid : entry.1.orderId = id
    · rw [if_pos ⟨entry, mem_cons_self, hid⟩, hid, lookup_insert]
    rw [lookup_insert_ne (Ne.symm hid), if_neg]
    rintro ⟨entry', hentry', hid'⟩
    rcases mem_cons.mp hentry' with rfl | hentry'
    · exact hid hid'
    · exact hrest ⟨entry', hentry', hid'⟩

/-- The merger is a copy of one that refers to the managers of `entries`. -/
structure Copied (w : World) (entries : List (Sigma fun _ : B256 => Nat)) (sink : Nat) (w' : World)
    (c : ShareBundleMerger) : Prop where
  world : w.Extends w'
  sink_eq : c.orderSink = sink
  manager : ∀ {hash pointer'}, c.multiBackrunManagers.lookup hash = some pointer' →
    ∃ pointer manager, ⟨hash, pointer⟩ ∈ entries ∧ w.managers[pointer]? = some manager ∧
      w'.managers[pointer']? = some (manager.cloneWithSink sink) ∧ w.managers.length ≤ pointer'
  present : ∀ {hash pointer}, ⟨hash, pointer⟩ ∈ entries → c.multiBackrunManagers.lookup hash ≠ none
  own : ∀ {hash hash' pointer}, c.multiBackrunManagers.lookup hash = some pointer →
    c.multiBackrunManagers.lookup hash' = some pointer → hash = hash'
  route : ∀ {id pointer}, c.orderId2MultiBackrunManagers.lookup id = some pointer →
    ∃ hash manager, ⟨hash, pointer⟩ ∈ entries ∧ w.managers[pointer]? = some manager ∧
      manager.HasId id
  routed : ∀ {hash pointer manager id}, ⟨hash, pointer⟩ ∈ entries →
    w.managers[pointer]? = some manager → manager.HasId id →
    c.orderId2MultiBackrunManagers.lookup id ≠ none

theorem copied_nil (w : World) (sink : Nat) : Copied w [] sink w (.new sink) where
  world := .refl w
  sink_eq := rfl
  manager hlookup := by cases hlookup
  present hmem := by cases hmem
  own hlookup := by cases hlookup
  route hlookup := by cases hlookup
  routed hmem := by cases hmem

variable {w w' w₁ w₂ w₃ : World} {entries entries' : List (Sigma fun _ : B256 => Nat)} {sink : Nat}
  {c : ShareBundleMerger}

/-- One more manager is cloned, of a hash that is new. -/
theorem Copied.cloneManager (h : Copied w entries sink w' c) {entry : Sigma fun _ : B256 => Nat}
    {manager : MultiBackrunManager} (hcell : w.managers[entry.2]? = some manager)
    (hnew : c.multiBackrunManagers.lookup entry.1 = none) :
    Copied w (entries ++ [entry]) sink (ShareBundleMerger.cloneManager sink (w', c) entry).1
      (ShareBundleMerger.cloneManager sink (w', c) entry).2 := by
  have hclone : ShareBundleMerger.cloneManager sink (w', c) entry =
      (w'.alloc (manager.cloneWithSink sink), { c with
        multiBackrunManagers := c.multiBackrunManagers.insert entry.1 w'.managers.length
        orderId2MultiBackrunManagers := manager.sortedOrders.entries.foldl
          (fun ids order => ids.insert order.1.orderId entry.2) c.orderId2MultiBackrunManagers }) := by
    simp only [ShareBundleMerger.cloneManager, h.world.getElem?_eq_some hcell]
  rw [hclone]
  have halloc := World.Extends.alloc (h.world.getElem?_eq_some hcell) sink
  have hold : ∀ {hash pointer}, c.multiBackrunManagers.lookup hash = some pointer →
      pointer < w'.managers.length := by
    intro hash pointer hlookup
    obtain ⟨_, _, _, _, hcell', _⟩ := h.manager hlookup
    exact (List.getElem?_eq_some_iff.mp hcell').1
  refine ⟨h.world.trans halloc, h.sink_eq, ?_, ?_, ?_, ?_, ?_⟩
  · intro hash pointer' hlookup
    rcases lookup_insert_eq_some hlookup with ⟨rfl, rfl⟩ | ⟨-, hlookup⟩
    · exact ⟨entry.2, manager, mem_append_right _ (mem_singleton.mpr rfl), hcell,
        getElem?_concat_length, h.world.length_le⟩
    · obtain ⟨pointer, manager', hmem, hcell', hcopy, hle⟩ := h.manager hlookup
      exact ⟨pointer, manager', mem_append_left _ hmem, hcell', halloc.getElem?_eq_some hcopy, hle⟩
  · intro hash pointer hmem
    by_cases heq : hash = entry.1
    · rw [heq, lookup_insert]
      exact Option.some_ne_none _
    rw [lookup_insert_ne heq]
    rcases mem_append.mp hmem with hmem | hmem
    · exact h.present hmem
    · exact absurd (congrArg Sigma.fst (mem_singleton.mp hmem)) heq
  · intro hash hash' pointer hlookup hlookup'
    -- a reference is the new one, or one from before
    rcases lookup_insert_eq_some hlookup with ⟨rfl, rfl⟩ | ⟨-, hlookup⟩
    · rcases lookup_insert_eq_some hlookup' with ⟨rfl, -⟩ | ⟨-, hlookup'⟩
      · rfl
      · exact absurd (hold hlookup') (lt_irrefl _)
    · rcases lookup_insert_eq_some hlookup' with ⟨rfl, rfl⟩ | ⟨-, hlookup'⟩
      · exact absurd (hold hlookup) (lt_irrefl _)
      · exact h.own hlookup hlookup'
  · intro id pointer hlookup
    rw [lookup_foldl_insert] at hlookup
    split_ifs at hlookup with hid
    · cases hlookup
      exact ⟨entry.1, manager, mem_append_right _ (mem_singleton.mpr rfl), hcell, hid⟩
    · obtain ⟨hash, manager', hmem, hcell', hid'⟩ := h.route hlookup
      exact ⟨hash, manager', mem_append_left _ hmem, hcell', hid'⟩
  intro hash pointer manager' id hmem hcell' hid
  rw [lookup_foldl_insert]
  split_ifs with hid'
  · exact Option.some_ne_none _
  rcases mem_append.mp hmem with hmem | hmem
  · exact h.routed hmem hcell' hid
  · cases mem_singleton.mp hmem
    cases hcell.symm.trans hcell'
    exact absurd hid hid'

theorem copied_foldl (sink : Nat)
    (hkeys : entries.NodupKeys)
    (hvalid : ∀ entry ∈ entries, ∃ manager, w.managers[entry.2]? = some manager) :
    Copied w entries sink (entries.foldl (cloneManager sink) (w, .new sink)).1
      (entries.foldl (cloneManager sink) (w, .new sink)).2 := by
  induction entries using reverseRecOn with
  | nil => exact copied_nil w sink
  | append_singleton entries entry ih =>
    rw [foldl_append]
    have hsplit : ((entries ++ [entry]).map Sigma.fst).Nodup := hkeys
    rw [map_append] at hsplit
    obtain ⟨hkeys', -, hdisjoint⟩ := nodup_append.mp hsplit
    have hih := ih hkeys' fun entry' hentry' => hvalid entry' (mem_append_left _ hentry')
    obtain ⟨manager, hcell⟩ := hvalid entry (mem_append_right _ (mem_singleton.mpr rfl))
    refine hih.cloneManager hcell ?_
    cases hlookup : lookup entry.1
      (entries.foldl (cloneManager sink) (w, .new sink)).2.multiBackrunManagers with
    | none => rfl
    | some pointer' =>
      obtain ⟨pointer, -, hmem, -⟩ := hih.manager hlookup
      exact absurd rfl (hdisjoint _ (mem_map_of_mem hmem) _ (mem_singleton.mpr rfl))

/-- The references of the merger are cells of the world. -/
def ShareBundleMerger.Valid (w : World) (m : ShareBundleMerger) : Prop :=
  ∀ {hash pointer}, m.multiBackrunManagers.lookup hash = some pointer → pointer < w.managers.length

/-- What was added before and after does not matter. -/
theorem Copied.mono (h : Copied w₁ entries sink w₂ c) (hbefore : w.Extends w₁)
    (hafter : w₂.Extends w₃) (hvalid : ∀ entry ∈ entries', entry.2 < w.managers.length)
    (hentries : ∀ entry, entry ∈ entries ↔ entry ∈ entries') : Copied w entries' sink w₃ c where
  world := hbefore.trans (h.world.trans hafter)
  sink_eq := h.sink_eq
  manager := by
    intro hash pointer' hlookup
    obtain ⟨pointer, manager, hmem, hcell, hcopy, hle⟩ := h.manager hlookup
    have hmem' := (hentries _).mp hmem
    exact ⟨pointer, manager, hmem', (hbefore.getElem? (hvalid _ hmem')).symm.trans hcell,
      hafter.getElem?_eq_some hcopy, hbefore.length_le.trans hle⟩
  present hmem := h.present ((hentries _).mpr hmem)
  own := h.own
  route := by
    intro id pointer hlookup
    obtain ⟨hash, manager, hmem, hcell, hid⟩ := h.route hlookup
    have hmem' := (hentries _).mp hmem
    exact ⟨hash, manager, hmem', (hbefore.getElem? (hvalid _ hmem')).symm.trans hcell, hid⟩
  routed hmem hcell hid := h.routed ((hentries _).mpr hmem) (hbefore.getElem?_eq_some hcell) hid

theorem mem_entries_iff (managers : AList fun _ : B256 => Nat) (entry : Sigma fun _ : B256 => Nat) :
    entry ∈ managers.entries ↔ managers.lookup entry.1 = some entry.2 :=
  (mem_lookup_iff).symm

variable {m : ShareBundleMerger} {signers : List (Sigma fun _ : Address => ShareBundleMerger)}

theorem copied_cloneWithSink (hashOrder : HashOrder) (hvalid : m.Valid w) (sink : Nat) :
    Copied w m.multiBackrunManagers.entries sink (m.cloneWithSink hashOrder w sink).1
      (m.cloneWithSink hashOrder w sink).2 := by
  have hperm := hashOrder.perm m.multiBackrunManagers.entries
  have hlt : ∀ entry ∈ m.multiBackrunManagers.entries, entry.2 < w.managers.length :=
    fun entry hentry => hvalid ((mem_entries_iff ..).mp hentry)
  have hcopied : Copied w (hashOrder.order m.multiBackrunManagers.entries) sink
      (m.cloneWithSink hashOrder w sink).1 (m.cloneWithSink hashOrder w sink).2 := by
    apply copied_foldl
    · exact (perm_nodupKeys hperm).mpr m.multiBackrunManagers.nodupKeys
    · intro entry hentry
      exact ⟨_, getElem?_eq_getElem (hlt entry (hperm.mem_iff.mp hentry))⟩
  exact hcopied.mono (.refl w) (.refl _) hlt fun entry => hperm.mem_iff

/-! ## Copies of several mergers -/

structure CloneOf (w : World) (parts : Parts) (sink : Nat) (w' : World) (copies : Parts) : Prop where
  world : w.Extends w'
  part : ∀ {k c}, copies k = some c →
    ∃ m, parts k = some m ∧ Copied w m.multiBackrunManagers.entries sink w' c
  present : ∀ {k m}, parts k = some m → ∃ c, copies k = some c
  own : ∀ {k c hash k' c' hash' pointer}, copies k = some c →
    c.multiBackrunManagers.lookup hash = some pointer → copies k' = some c' →
    c'.multiBackrunManagers.lookup hash' = some pointer → k = k'

theorem cloneOf_nil (w : World) (sink : Nat) :
    CloneOf w (fun _ => none) sink w (fun _ => none) where
  world := .refl w
  part hk := by cases hk
  present hk := by cases hk
  own hk := by cases hk

theorem Copied.valid (h : Copied w entries sink w' c) : c.Valid w' := by
  intro hash pointer hlookup
  obtain ⟨_, _, _, _, hcopy, _⟩ := h.manager hlookup
  exact (List.getElem?_eq_some_iff.mp hcopy).1

/-- One more merger is cloned. -/
theorem CloneOf.add (hashOrder : HashOrder) {parts copies : Parts}
    (h : CloneOf w parts sink w' copies) (k : Option Address)
    (hvalid : m.Valid w) (hvalids : ∀ {k m}, parts k = some m → m.Valid w) :
    CloneOf w (update parts k (some m)) sink (m.cloneWithSink hashOrder w' sink).1
      (update copies k (some (m.cloneWithSink hashOrder w' sink).2)) := by
  have hvalid' : m.Valid w' := fun hlookup => (hvalid hlookup).trans_le h.world.length_le
  have hcopied := copied_cloneWithSink hashOrder hvalid' sink
  have hentries : ∀ {m : ShareBundleMerger}, m.Valid w →
      ∀ entry ∈ m.multiBackrunManagers.entries, entry.2 < w.managers.length :=
    fun hvalid entry hentry => hvalid ((mem_entries_iff ..).mp hentry)
  -- the references of the new copy are above those of the others
  have habove : ∀ {hash pointer},
      (m.cloneWithSink hashOrder w' sink).2.multiBackrunManagers.lookup hash =
      some pointer → w'.managers.length ≤ pointer := by
    intro hash pointer hlookup
    obtain ⟨_, _, _, _, _, hle⟩ := hcopied.manager hlookup
    exact hle
  have hbelow : ∀ {k c hash pointer}, copies k = some c →
      c.multiBackrunManagers.lookup hash = some pointer → pointer < w'.managers.length := by
    intro k c hash pointer hk hlookup
    obtain ⟨_, _, hcopy⟩ := h.part hk
    exact hcopy.valid hlookup
  refine ⟨h.world.trans hcopied.world, ?_, ?_, ?_⟩
  · intro k' c hk'
    rcases update_eq_some_iff.mp hk' with ⟨rfl, rfl⟩ | ⟨hne, hk'⟩
    · exact ⟨m, update_self .., hcopied.mono h.world (.refl _) (hentries hvalid) fun _ => Iff.rfl⟩
    · obtain ⟨m', hm', hcopy⟩ := h.part hk'
      exact ⟨m', (update_of_ne hne ..).trans hm',
        hcopy.mono (.refl w) hcopied.world (hentries (hvalids hm')) fun _ => Iff.rfl⟩
  · intro k' m' hk'
    rcases update_eq_some_iff.mp hk' with ⟨rfl, rfl⟩ | ⟨hne, hk'⟩
    · exact ⟨_, update_self ..⟩
    · obtain ⟨c, hc⟩ := h.present hk'
      exact ⟨c, (update_of_ne hne ..).trans hc⟩
  intro k₁ c₁ hash₁ k₂ c₂ hash₂ pointer hk₁ hlookup₁ hk₂ hlookup₂
  rcases update_eq_some_iff.mp hk₁ with ⟨rfl, rfl⟩ | ⟨-, hold₁⟩
  · rcases update_eq_some_iff.mp hk₂ with ⟨rfl, -⟩ | ⟨-, hold₂⟩
    · rfl
    · exact absurd (hbelow hold₂ hlookup₂) (not_lt.mpr (habove hlookup₁))
  · rcases update_eq_some_iff.mp hk₂ with ⟨rfl, rfl⟩ | ⟨-, hold₂⟩
    · exact absurd (hbelow hold₁ hlookup₁) (not_lt.mpr (habove hlookup₂))
    · exact h.own hold₁ hlookup₁ hold₂ hlookup₂

/-! ## The mergers of the signers -/

/-- The mergers of a list of signers. -/
def signerParts (signers : List (Sigma fun _ : Address => ShareBundleMerger)) : Parts
  | none => none
  | some signer => signers.dlookup signer

theorem signerParts_append
    {entry : Sigma fun _ : Address => ShareBundleMerger} (hnew : signers.dlookup entry.1 = none) :
    signerParts (signers ++ [entry]) =
      update (signerParts signers) (some entry.1) (some entry.2) := by
  funext k
  cases k with
  | none => rw [update_of_ne (by simp)]; rfl
  | some signer =>
    by_cases heq : signer = entry.1
    · subst heq
      rw [update_self]
      simp only [signerParts, dlookup_append, hnew, Option.none_or]
      exact dif_pos rfl
    · simp [signerParts, dlookup_append, heq]

theorem signerParts_insert (signers : AList fun _ : Address => ShareBundleMerger) (signer : Address)
    (m : ShareBundleMerger) :
    signerParts (signers.insert signer m).entries =
      update (signerParts signers.entries) (some signer) (some m) := by
  funext k
  cases k with
  | none => rw [update_of_ne (by simp)]; rfl
  | some signer' =>
    change (signers.insert signer m).lookup signer' = _
    rw [lookup_insert_eq_ite, update_apply]
    simp only [Option.some_inj]
    rfl

theorem cloneOf_signers (hashOrder : HashOrder) (sink : Nat)
    (hkeys : signers.NodupKeys) (hvalid : ∀ entry ∈ signers, entry.2.Valid w) :
    CloneOf w (signerParts signers) sink
      (signers.foldl (MultiShareBundleMerger.cloneMerger hashOrder sink) (w, ∅)).1
      (signerParts (signers.foldl (MultiShareBundleMerger.cloneMerger hashOrder sink)
        (w, ∅)).2.entries) := by
  induction signers using reverseRecOn with
  | nil =>
    have hnil : signerParts [] = fun _ => none := by
      funext k
      cases k <;> rfl
    change CloneOf w (signerParts []) sink w (signerParts [])
    rw [hnil]
    exact cloneOf_nil w sink
  | append_singleton signers entry ih =>
    have hsplit : ((signers ++ [entry]).map Sigma.fst).Nodup := hkeys
    rw [map_append] at hsplit
    obtain ⟨hkeys', -, hdisjoint⟩ := nodup_append.mp hsplit
    have hnew : signers.dlookup entry.1 = none :=
      dlookup_eq_none.mpr fun hmem => hdisjoint _ hmem _ (mem_singleton.mpr rfl) rfl
    have hih := ih hkeys' fun entry' hentry' => hvalid entry' (mem_append_left _ hentry')
    rw [foldl_append, signerParts_append hnew]
    change CloneOf w _ sink _ (signerParts (insert _ _ _).entries)
    rw [signerParts_insert]
    refine hih.add hashOrder (some entry.1)
      (hvalid entry (mem_append_right _ (mem_singleton.mpr rfl))) fun {k m} hk => ?_
    cases k with
    | none => cases hk
    | some signer =>
      exact hvalid ⟨signer, m⟩ (mem_append_left _ (of_mem_dlookup hk))

end BlockOrders.Merging
