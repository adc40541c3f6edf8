/-
  One kept trie across updates.

  `Live M enc store t ops`: the trie `t` represents the base map `M` with the changes `ops`
  made, and each record says what the base has under its key. Undoing one of the changes
  takes it out of the list, an insertion or deletion under a fresh key puts one in.

  `Prepared u changes`: what is applied in the current iteration, together with what is
  still to be inserted and deleted, is the list `changes`; what is applied or still to be
  undone is live. `prepareAll_spec` brings a kept trie there, `processUpdate_spec` keeps
  it, and when no nodes are missing exactly `changes` are live.
-/
import Rbuilder.Calculator.Model
import Rbuilder.HashMap
import Rbuilder.SparseMpt.PartialTrie
import Rbuilder.UndoLog

namespace SparseMpt

open UndoLog (Patched)
open ProofStore (StoreOk)
open AList List TrieCalculator AppliedOp Function Trie Patricia

theorem lookup_insert_eq (m : MptMap) (k : Nibbles) (v : Bytes) :
    (fun q => (m.insert k v).lookup q) = update (fun q => m.lookup q) k (some v) := by
  funext q
  rw [lookup_insert_eq_ite, update_apply]

theorem lookup_erase_eq (m : MptMap) (k : Nibbles) :
    (fun q => (m.erase k).lookup q) = update (fun q => m.lookup q) k none := by
  funext q
  rw [lookup_erase_eq_ite, update_apply]

theorem prefixFree_keys64 : Patricia.PrefixFree keys64 := Patricia.prefixFree_of_length 64

namespace Trie

theorem readValue_mono {t t' : Trie} {r : Option Range} {v : Option Bytes}
    (h : t.readValue r = some v) (hv : t.values <+: t'.values) : t'.readValue r = some v := by
  cases r with
  | none => exact h
  | some r =>
    obtain ⟨w, hw, rfl⟩ := Option.map_eq_some_iff.mp h
    simp only [readValue, slice?_mono hw hv, Option.map_some]

end Trie

section Live

variable {V : Type}

/-- The write a record stands for. -/
def AppliedOp.entry (enc : V → Option Bytes) (op : AppliedOp V) : Nibbles × Option Bytes :=
  (op.revertKey, enc op.insertedValue)

/-- The record says what the base has, and a deleted key was there. -/
structure AppliedOp.Restores (M : MptMap) (enc : V → Option Bytes) (t : Trie) (op : AppliedOp V) :
    Prop where
  length : op.revertKey.length = 64
  value : t.readValue op.revertValue = some (M.lookup op.revertKey)
  deleted : enc op.insertedValue = none → M.lookup op.revertKey ≠ none

variable {op : AppliedOp V} {store' : ProofStore} {x : V}

theorem AppliedOp.Restores.mono {M : MptMap} {enc : V → Option Bytes} {t t' : Trie}
    (h : op.Restores M enc t) (hv : t.values <+: t'.values) :
    op.Restores M enc t' :=
  ⟨h.length, readValue_mono h.value hv, h.deleted⟩

variable (keccak : Bytes → B256) (M : MptMap) (enc : V → Option Bytes) (store : ProofStore)

/-- The trie represents the map. -/
abbrev Represents (t : Trie) (m : MptMap) : Prop :=
  Trie.Simulates (nodeCodec keccak) (ofMap M) keys64 store t m

/-- The trie represents the map `m`, which is the base map with the given changes. -/
structure LiveMap (t : Trie) (m : MptMap) (ops : List (AppliedOp V)) : Prop where
  represents : Represents keccak M store t m
  patched : Patched (fun q => M.lookup q) (fun q => m.lookup q) (ops.map (AppliedOp.entry enc))
  restores : ∀ op ∈ ops, op.Restores M enc t

/-- The trie represents the base map with the given changes. -/
def Live (t : Trie) (ops : List (AppliedOp V)) : Prop := ∃ m, LiveMap keccak M enc store t m ops

variable {keccak M enc store} {t t' : Trie} {ops ops' : List (AppliedOp V)}

theorem live_uninit (hM : ∀ k, k ∈ M → k.length = 64) : Live keccak M enc store ({} : Trie) [] :=
  ⟨M, Or.inl ⟨rfl, hM, fun k => get_ofMap (prefixFree_base hM) k⟩, Patched.nil _,
    fun _ h => absurd h not_mem_nil⟩

theorem Live.perm (h : Live keccak M enc store t ops) (hp : ops.Perm ops') :
    Live keccak M enc store t ops' := by
  obtain ⟨m, hsim, hpat, hres⟩ := h
  exact ⟨m, hsim, hpat.perm (hp.map _), fun op hop => hres op (hp.mem_iff.mpr hop)⟩

variable {m : MptMap} {key : Nibbles}

theorem LiveMap.mono
    (h : LiveMap keccak M enc store t m ops) (hg : store.rlpPtrs <+: store'.rlpPtrs) :
    LiveMap keccak M enc store' t m ops :=
  ⟨h.represents.mono hg, h.patched, h.restores⟩

theorem Live.mono (h : Live keccak M enc store t ops)
    (hg : store.rlpPtrs <+: store'.rlpPtrs) : Live keccak M enc store' t ops := by
  obtain ⟨m, hm⟩ := h
  exact ⟨m, hm.mono hg⟩

theorem LiveMap.setTrie (h : LiveMap keccak M enc store t m ops)
    (hsim : Represents keccak M store t' m) (hvals : t.values <+: t'.values) :
    LiveMap keccak M enc store t' m ops :=
  ⟨hsim, h.patched, fun op hop => (h.restores op hop).mono hvals⟩

/-- Undo the first change. -/
theorem live_revertOp (h : Live keccak M enc store t (op :: ops)) :
    Gives (fun t' _ => Live keccak M enc store t' ops)
      (fun t' e => Live keccak M enc store t' (op :: ops) ∧ ∃ node, e = .nodeNotFound node)
      (t.revertOp op) := by
  obtain ⟨m, hm⟩ := h
  have hop := hm.restores op mem_cons_self
  have hundo := hm.patched.undo
  have hwritten := hm.patched.written _ mem_cons_self
  have hres {t' : Trie} (hvals : t.values <+: t'.values) : ∀ op ∈ ops, op.Restores M enc t' :=
    fun op hop => (hm.restores op (mem_cons_of_mem _ hop)).mono hvals
  obtain ⟨value, key, revertValue⟩ := op
  cases revertValue with
  | some r =>
    obtain ⟨w, hw, hM⟩ := Option.map_eq_some_iff.mp hop.value
    have hv : (InsertValue.storedValue r).Denotes t w := hw
    simp only [revertOp]
    refine (simulates_insert prefixFree_keys64 hm.represents hop.length hv).elim
      (fun t' old hins => ?_) fun t' e hins => ?_
    · refine ⟨_, hins.1, ?_, hres hins.2.2⟩
      rw [lookup_insert_eq, hM]
      exact hundo
    · obtain ⟨hsim', rfl, hvals⟩ := hins
      exact ⟨⟨m, hm.setTrie hsim' hvals⟩, key, rfl⟩
  | none =>
    have hM : M.lookup key = none := (Option.some.inj hop.value).symm
    simp only [revertOp]
    refine (simulates_delete hm.represents key).elim (fun t' old hdel => ?_) fun t' e hdel => ?_
    · obtain ⟨_, _, _, hsim', hvals⟩ := hdel
      refine ⟨_, hsim', ?_, hres hvals⟩
      rw [lookup_erase_eq, ← hM]
      exact hundo
    · obtain ⟨⟨rfl, habs⟩ | ⟨node, rfl⟩, hsim', hvals⟩ := hdel
      · -- the change wrote the key, so it is there
        exact absurd hM (hop.deleted (hwritten.symm.trans habs))
      · exact ⟨⟨m, hm.setTrie hsim' hvals⟩, node, rfl⟩

theorem fresh_lookup
    (hpat : Patched (fun q => M.lookup q) (fun q => m.lookup q) (ops.map (entry enc)))
    (hk : key ∉ ops.map revertKey) :
    key ∉ (ops.map (entry enc)).map Prod.fst ∧ m.lookup key = M.lookup key := by
  have hk' : key ∉ (ops.map (entry enc)).map Prod.fst := by
    rw [map_map]
    exact hk
  exact ⟨hk', hpat.unwritten key hk'⟩

/-- Insert under a fresh key. -/
theorem live_insert (h : Live keccak M enc store t ops)
    (hlen : key.length = 64) (hk : key ∉ ops.map revertKey) {v : Bytes}
    (hx : enc x = some v) :
    Gives (fun t' old => Live keccak M enc store t' (⟨x, key, old⟩ :: ops))
      (fun t' e => Live keccak M enc store t' ops ∧ ∃ node, e = .nodeNotFound node)
      (t.insertNibbleKey key (.value v)) := by
  obtain ⟨m, hm⟩ := h
  obtain ⟨hk', hlook⟩ := fresh_lookup hm.patched hk
  have hv : (InsertValue.value v).Denotes t v := rfl
  refine (simulates_insert prefixFree_keys64 hm.represents hlen hv).elim
    (fun t' old hins => ?_) fun t' e hins => ?_
  · obtain ⟨hsim', hread, hvals⟩ := hins
    refine ⟨_, hsim', ?_, ?_⟩
    · rw [lookup_insert_eq, ← hx]
      exact hm.patched.write hk' (enc x)
    intro op hop
    rcases mem_cons.mp hop with rfl | hop
    · refine ⟨hlen, hread.trans (congrArg some hlook), fun hnone => ?_⟩
      rw [hx] at hnone
      cases hnone
    · exact (hm.restores op hop).mono hvals
  · obtain ⟨hsim', rfl, hvals⟩ := hins
    exact ⟨⟨m, hm.setTrie hsim' hvals⟩, key, rfl⟩

/-- Delete a fresh key. -/
theorem live_delete (h : Live keccak M enc store t ops)
    (hlen : key.length = 64) (hk : key ∉ ops.map revertKey) (hx : enc x = none) :
    Gives (fun t' old => Live keccak M enc store t' (⟨x, key, some old⟩ :: ops))
      (fun t' e => Live keccak M enc store t' ops ∧
        (e = .keyNotFound ∧ M.lookup key = none ∨ ∃ node, e = .nodeNotFound node))
      (t.deleteNibblesKey key) := by
  obtain ⟨m, hm⟩ := h
  obtain ⟨hk', hlook⟩ := fresh_lookup hm.patched hk
  refine (simulates_delete hm.represents key).elim (fun t' old hdel => ?_) fun t' e hdel => ?_
  · obtain ⟨w, hw, hread, hsim', hvals⟩ := hdel
    have hM : M.lookup key = some w := hlook.symm.trans hw
    refine ⟨_, hsim', ?_, ?_⟩
    · rw [lookup_erase_eq, ← hx]
      exact hm.patched.write hk' (enc x)
    intro op hop
    rcases mem_cons.mp hop with rfl | hop
    · refine ⟨hlen, ?_, fun _ => by simp [hM]⟩
      simp only [readValue, hread, hM, Option.map_some]
    · exact (hm.restores op hop).mono hvals
  · obtain ⟨herr, hsim', hvals⟩ := hdel
    rw [hlook] at herr
    exact ⟨⟨m, hm.setTrie hsim' hvals⟩, herr⟩

section Proofs

variable (hM : ∀ k, k ∈ M → k.length = 64)
  (hok : StoreOk (nodeCodec keccak) (ofMap M) store)

include hM hok

theorem liveMap_tryAddProof {m : MptMap} (h : LiveMap keccak M enc store t m ops)
    (key : Nibbles) :
    LiveMap keccak M enc store (t.tryAddProofFromProofStore store key).1 m ops := by
  have hb := wellFormed_ofMap (prefixFree_base hM)
  obtain ⟨t', hsim', hvals, ⟨b, he⟩ | ⟨e, he⟩⟩ := simulates_tryAddProof hb hok h.represents key
  · rw [he]
    exact h.setTrie hsim' hvals
  · rw [he]
    exact h.setTrie hsim' hvals

theorem liveMap_addKnownProofs (nodes : List Nibbles) :
    ∀ {t : Trie} {m : MptMap}, LiveMap keccak M enc store t m ops →
      LiveMap keccak M enc store (addKnownProofs store t nodes).1 m ops := by
  induction nodes with
  | nil => intro t m h; exact h
  | cons node nodes ih =>
    intro t m h
    have hadd := liveMap_tryAddProof hM hok h node
    unfold addKnownProofs
    split
    · split
      · next t' he =>
          rw [he] at hadd
          exact ih hadd
      · next t' _ _ he =>
          rw [he] at hadd
          exact hadd
    · exact ih h

theorem liveMap_addFetchedProofs (nodes : List Nibbles) :
    ∀ {t : Trie} {m : MptMap}, LiveMap keccak M enc store t m ops →
      LiveMap keccak M enc store (addFetchedProofs store t nodes).1 m ops := by
  induction nodes with
  | nil => intro t m h; exact h
  | cons node nodes ih =>
    intro t m h
    have hadd := liveMap_tryAddProof hM hok h node
    unfold addFetchedProofs
    split
    · next t' he =>
        rw [he] at hadd
        exact ih hadd
    · next t' _ _ he =>
        rw [he] at hadd
        exact hadd

end Proofs

/-- Hashing gives the root of the represented map. -/
theorem liveMap_rootHash (h : LiveMap keccak M enc store t m ops)
    (parallel : Bool) (schedule : HashSchedule) :
    t.isUninit = true ∧
      t.rootHash keccak parallel schedule.order store = (t, .error (.nodeNotFound [])) ∨
    ∃ t', t.rootHash keccak parallel schedule.order store = (t', .ok (mptRoot keccak m)) ∧
      LiveMap keccak M enc store t' m ops ∧
      Trie.Holds (nodeCodec keccak) (ProofStore.Known (nodeCodec keccak) (ofMap M)
        store) keys64 t' m ∧ t'.IsHashed (.localIdx 0) := by
  rcases simulates_rootHash prefixFree_keys64 h.represents parallel schedule.perm with
    ⟨hnil, he⟩ | ⟨t', he, hh, hvals, hhashed⟩
  · exact Or.inl ⟨by simp [isUninit, hnil], he⟩
  · exact Or.inr ⟨t', he, h.setTrie (Or.inr hh) hvals, hh, hhashed⟩

/-- What is represented has keys of 64 nibbles. -/
theorem LiveMap.length (h : LiveMap keccak M enc store t m ops) : ∀ k, k ∈ m → k.length = 64 := by
  rcases h.represents with ⟨_, hm, _⟩ | hh
  · exact hm
  · exact hh.1

end Live

/-! ## The loops of an update -/

section Loops

variable {K V : Type}

/-- The records of a map. -/
def records (applied : AList fun _ : K => AppliedOp V) : List (AppliedOp V) :=
  applied.entries.map Sigma.snd

/-- The changes of a map. -/
def changesOf (applied : AList fun _ : K => AppliedOp V) : List (K × V) :=
  applied.entries.map fun e => (e.1, e.2.insertedValue)

/-- Every record is about the trie key of its own key. -/
def Keyed (hash : K → Nibbles) (applied : AList fun _ : K => AppliedOp V) : Prop :=
  ∀ e ∈ applied.entries, e.2.revertKey = hash e.1

def undone (ops : List (AppliedOp V × Bool)) : List (AppliedOp V) :=
  (ops.filter fun e => !e.2).map Prod.fst

def pendingInserts (ops : List (InsertOp K V)) : List (K × V) :=
  (ops.filter fun op => !op.ok).map fun op => (op.opKey, op.opValue)

def pendingDeletes (deleted : V) (ops : List (DeleteOp K)) : List (K × V) :=
  (ops.filter fun op => !op.ok).map fun op => (op.opKey, deleted)

@[simp] theorem undone_nil : undone ([] : List (AppliedOp V × Bool)) = [] := rfl

@[simp] theorem undone_cons_true (op : AppliedOp V) (ops : List (AppliedOp V × Bool)) :
    undone ((op, true) :: ops) = undone ops := rfl

@[simp] theorem undone_cons_false (op : AppliedOp V) (ops : List (AppliedOp V × Bool)) :
    undone ((op, false) :: ops) = op :: undone ops := rfl

@[simp] theorem pendingInserts_nil : pendingInserts ([] : List (InsertOp K V)) = [] := rfl

@[simp] theorem pendingDeletes_nil (deleted : V) :
    pendingDeletes deleted ([] : List (DeleteOp K)) = [] := rfl

variable {keccak : Bytes → B256} {M : MptMap} {enc : V → Option Bytes} {store : ProofStore}
  {hash : K → Nibbles}

/-- All changes that can be undone are undone; the others wait for missing nodes. -/
theorem revertLoop_spec (texts : UpdateTexts) (ops : List (AppliedOp V × Bool)) :
    ∀ (t : Trie) (ctx : List (AppliedOp V)),
      Live keccak M enc store t (undone ops ++ ctx) →
      match revertLoop texts t ops with
      | (t', ops', missing, res) => Live keccak M enc store t' (undone ops' ++ ctx) ∧
          res = .ok () ∧ (missing = [] → undone ops' = []) := by
  induction ops with
  | nil =>
    intro t ctx h
    exact ⟨h, rfl, fun _ => rfl⟩
  | cons e ops ih =>
    intro t ctx h
    obtain ⟨op, done⟩ := e
    cases done with
    | true => exact ih t ctx h
    | false =>
      simp only [revertLoop]
      refine (live_revertOp h).elim (fun t' _ hrev => ih t' ctx hrev) fun t' e hrev => ?_
      obtain ⟨hlive, node, rfl⟩ := hrev
      -- the change stays, as part of the context of the rest
      have hrest := ih t' (op :: ctx) (hlive.perm perm_middle.symm)
      exact ⟨hrest.1.perm perm_middle, hrest.2.1, fun hm => by cases hm⟩

variable {applied : AList fun _ : K => AppliedOp V}

theorem keyed_insert [DecidableEq K] {k : K}
    {op : AppliedOp V} (h : Keyed hash applied) (hop : op.revertKey = hash k) :
    Keyed hash (applied.insert k op) := by
  intro e he
  rcases mem_cons.mp he with rfl | he
  · exact hop
  · exact h e ((kerase_sublist k _).subset he)

theorem map_revertKey_records (h : Keyed hash applied) :
    (records applied).map revertKey = (changesOf applied).map (hash ∘ Prod.fst) := by
  rw [records, changesOf, map_map, map_map]
  exact map_congr_left h

variable [DecidableEq K]

theorem records_insert {k : K} (h : k ∉ applied)
    (op : AppliedOp V) : records (applied.insert k op) = op :: records applied := by
  rw [records, entries_insert_of_notMem h]
  rfl

theorem changesOf_insert {k : K} (h : k ∉ applied)
    (op : AppliedOp V) :
    changesOf (applied.insert k op) = (k, op.insertedValue) :: changesOf applied := by
  rw [changesOf, entries_insert_of_notMem h]
  rfl

theorem mem_changesOf {k : K} (h : k ∈ applied) : ∃ v, (k, v) ∈ changesOf applied := by
  obtain ⟨op, hop⟩ := exists_lookup h
  have he : Sigma.mk k op ∈ applied.entries := mem_lookup_iff.mp hop
  exact ⟨op.insertedValue, mem_map.mpr ⟨_, he, rfl⟩⟩

variable (keccak M enc store hash) in
/-- The applied changes are live, and no two of the applied, the pending and the other
    changes share a key of the trie. -/
structure Applying (t : Trie) (applied : AList fun _ : K => AppliedOp V)
    (pending rest : List (K × V)) : Prop where
  live : Live keccak M enc store t (records applied)
  keyed : Keyed hash applied
  apart : ((changesOf applied ++ (pending ++ rest)).map (hash ∘ Prod.fst)).Nodup

variable {t t' : Trie} {applied : AList fun _ : K => AppliedOp V} {pending rest : List (K × V)}
  {k : K} {v : V}

omit [DecidableEq K] in
theorem perm_skip (done pending rest : List (K × V)) (e : K × V) :
    (done ++ (e :: pending ++ rest)).Perm (done ++ (pending ++ e :: rest)) :=
  Perm.append_left _ perm_middle.symm

section

variable (h : Applying keccak M enc store hash t applied ((k, v) :: pending) rest)
include h

theorem Applying.fresh : k ∉ applied ∧ hash k ∉ (records applied).map revertKey := by
  have hnd := h.apart
  rw [cons_append, map_append, map_cons] at hnd
  have hhash : hash k ∉ (changesOf applied).map (hash ∘ Prod.fst) := fun hm =>
    (nodup_append.mp hnd).2.2 _ hm _ mem_cons_self rfl
  refine ⟨fun hmem => ?_, by rwa [map_revertKey_records h.keyed]⟩
  obtain ⟨w, hw⟩ := mem_changesOf hmem
  exact hhash (mem_map.mpr ⟨_, hw, rfl⟩)

/-- The first pending change has been made. -/
theorem Applying.make {old : Option Range}
    (hlive : Live keccak M enc store t' (⟨v, hash k, old⟩ :: records applied)) :
    Applying keccak M enc store hash t' (applied.insert k ⟨v, hash k, old⟩) pending rest ∧
      (changesOf (applied.insert k ⟨v, hash k, old⟩) ++ (pending ++ rest)).Perm
        (changesOf applied ++ ((k, v) :: pending ++ rest)) := by
  have hfresh := h.fresh.1
  have hperm : (changesOf (applied.insert k ⟨v, hash k, old⟩) ++ (pending ++ rest)).Perm
      (changesOf applied ++ ((k, v) :: pending ++ rest)) := by
    rw [changesOf_insert hfresh]
    exact perm_middle.symm
  refine ⟨⟨?_, keyed_insert h.keyed rfl, (hperm.map _).nodup_iff.mpr h.apart⟩, hperm⟩
  rw [records_insert hfresh]
  exact hlive

omit [DecidableEq K] in
/-- The first pending change waits for missing nodes. -/
theorem Applying.skip (hlive : Live keccak M enc store t' (records applied)) :
    Applying keccak M enc store hash t' applied pending ((k, v) :: rest) :=
  ⟨hlive, h.keyed, ((perm_skip ..).map _).nodup_iff.mp h.apart⟩

end

omit [DecidableEq K] in
theorem Applying.unskip
    (h : Applying keccak M enc store hash t applied pending ((k, v) :: rest)) :
    Applying keccak M enc store hash t applied ((k, v) :: pending) rest :=
  ⟨h.live, h.keyed, ((perm_skip ..).map _).nodup_iff.mpr h.apart⟩

/-- The insertion is about the trie key of its key and the encoding of its value. -/
def InsertOp.WellFormed (hash : K → Nibbles) (enc : V → Option Bytes) (op : InsertOp K V) : Prop :=
  op.key = hash op.opKey ∧ enc op.opValue = some op.value

theorem insertLoop_spec (hlen : ∀ k, (hash k).length = 64) (ops : List (InsertOp K V)) :
    ∀ (t : Trie) (applied : AList fun _ : K => AppliedOp V) (rest : List (K × V)),
      Applying keccak M enc store hash t applied (pendingInserts ops) rest →
      (∀ op ∈ ops, op.WellFormed hash enc) →
      match insertLoop t applied ops with
      | (t', applied', ops', missing, res) =>
        Applying keccak M enc store hash t' applied' (pendingInserts ops') rest ∧
        (∀ op ∈ ops', op.WellFormed hash enc) ∧
        (changesOf applied' ++ (pendingInserts ops' ++ rest)).Perm
          (changesOf applied ++ (pendingInserts ops ++ rest)) ∧
        res = .ok () ∧ (missing = [] → pendingInserts ops' = []) := by
  induction ops with
  | nil =>
    intro t applied rest h hops
    exact ⟨h, hops, Perm.refl _, rfl, fun _ => rfl⟩
  | cons op ops ih =>
    intro t applied rest h hops
    have hops' : ∀ op ∈ ops, op.WellFormed hash enc := fun op hop => hops op (mem_cons_of_mem _ hop)
    obtain ⟨key, value, opKey, opValue, ok⟩ := op
    have hop := hops _ mem_cons_self
    obtain rfl : key = hash opKey := hop.1
    cases ok with
    | true =>
      have hrec := ih t applied rest h hops'
      exact ⟨hrec.1, forall_mem_cons.mpr ⟨hop, hrec.2.1⟩, hrec.2.2⟩
    | false =>
      simp only [insertLoop, Bool.false_eq_true, if_false]
      refine (live_insert h.live (hlen opKey) h.fresh.2 hop.2).elim (fun t' old hins => ?_)
        fun t' e hins => ?_
      · obtain ⟨hmade, hperm⟩ := h.make hins
        obtain ⟨hap, hwf, hperm', hres⟩ := ih t' _ rest hmade hops'
        exact ⟨hap, forall_mem_cons.mpr ⟨hop, hwf⟩, hperm'.trans hperm, hres⟩
      · obtain ⟨hlive, node, rfl⟩ := hins
        obtain ⟨hap, hwf, hperm, hres, _⟩ := ih t' applied _ (h.skip hlive) hops'
        exact ⟨hap.unskip, forall_mem_cons.mpr ⟨hop, hwf⟩,
          (perm_skip ..).trans (hperm.trans (perm_skip ..).symm), hres,
          fun hm => by cases hm⟩

/-- A deletion fails only for a key that the base does not have. -/
theorem deleteLoop_spec (hlen : ∀ k, (hash k).length = 64) (texts : UpdateTexts) {deleted : V}
    (hdel : enc deleted = none) (ops : List (DeleteOp K)) :
    ∀ (t : Trie) (applied : AList fun _ : K => AppliedOp V) (rest : List (K × V)),
      Applying keccak M enc store hash t applied (pendingDeletes deleted ops) rest →
      (∀ op ∈ ops, op.key = hash op.opKey) →
      match deleteLoop texts deleted t applied ops with
      | (t', applied', ops', missing, res) =>
        Applying keccak M enc store hash t' applied' (pendingDeletes deleted ops') rest ∧
        (∀ op ∈ ops', op.key = hash op.opKey) ∧
        (changesOf applied' ++ (pendingDeletes deleted ops' ++ rest)).Perm
          (changesOf applied ++ (pendingDeletes deleted ops ++ rest)) ∧
        ((res = .ok () ∧ (missing = [] → pendingDeletes deleted ops' = [])) ∨
          res = .error (.other texts.deleteMissing) ∧
            ∃ k, (k, deleted) ∈ pendingDeletes deleted ops ∧ M.lookup (hash k) = none) := by
  induction ops with
  | nil =>
    intro t applied rest h hops
    exact ⟨h, hops, Perm.refl _, Or.inl ⟨rfl, fun _ => rfl⟩⟩
  | cons op ops ih =>
    intro t applied rest h hops
    have hops' : ∀ op ∈ ops, op.key = hash op.opKey := fun op hop => hops op (mem_cons_of_mem _ hop)
    obtain ⟨key, opKey, ok⟩ := op
    obtain rfl : key = hash opKey := hops _ mem_cons_self
    cases ok with
    | true =>
      have hrec := ih t applied rest h hops'
      exact ⟨hrec.1, forall_mem_cons.mpr ⟨rfl, hrec.2.1⟩, hrec.2.2⟩
    | false =>
      simp only [deleteLoop, Bool.false_eq_true, if_false]
      refine (live_delete h.live (hlen opKey) h.fresh.2 hdel).elim (fun t' old hd => ?_)
        fun t' e hd => ?_
      · obtain ⟨hmade, hperm⟩ := h.make hd
        obtain ⟨hap, hwf, hperm', hres⟩ := ih t' _ rest hmade hops'
        refine ⟨hap, forall_mem_cons.mpr ⟨rfl, hwf⟩, hperm'.trans hperm, hres.imp_right ?_⟩
        rintro ⟨hres, k, hk, hM⟩
        exact ⟨hres, k, mem_cons_of_mem _ hk, hM⟩
      obtain ⟨hlive, ⟨rfl, hM⟩ | ⟨node, rfl⟩⟩ := hd
      · exact ⟨⟨hlive, h.keyed, h.apart⟩, hops, Perm.refl _, Or.inr ⟨rfl, opKey, mem_cons_self, hM⟩⟩
      obtain ⟨hap, hwf, hperm, hres⟩ := ih t' applied _ (h.skip hlive) hops'
      refine ⟨hap.unskip, forall_mem_cons.mpr ⟨rfl, hwf⟩,
        (perm_skip ..).trans (hperm.trans (perm_skip ..).symm), ?_⟩
      rcases hres with ⟨hres, _⟩ | ⟨hres, k, hk, hM⟩
      · exact Or.inl ⟨hres, fun hm => by cases hm⟩
      · exact Or.inr ⟨hres, k, mem_cons_of_mem _ hk, hM⟩

end Loops

/-! ## One update -/

section Process

variable {K V : Type} (keccak : Bytes → B256) (M : MptMap) (enc : V → Option Bytes)
  (store : ProofStore) (hash : K → Nibbles) (deleted : V)

/-- The state in the middle of an update to `changes`. -/
structure Prepared (u : TrieCalculator K V) (changes : List (K × V)) : Prop where
  live : Live keccak M enc store u.trie (undone u.revertOps ++ records u.appliedCurrent)
  keyed : Keyed hash u.appliedCurrent
  inserts : ∀ op ∈ u.insertOps, op.WellFormed hash enc
  deletes : ∀ op ∈ u.deleteOps, op.key = hash op.opKey
  perm : (changesOf u.appliedCurrent ++
    (pendingInserts u.insertOps ++ pendingDeletes deleted u.deleteOps)).Perm changes
  apart : (changes.map (hash ∘ Prod.fst)).Nodup
  drained : u.appliedPrevious = ∅

/-- Exactly `changes` are applied in the current iteration. -/
structure Updated (u : TrieCalculator K V) (changes : List (K × V)) : Prop where
  live : Live keccak M enc store u.trie (records u.appliedCurrent)
  keyed : Keyed hash u.appliedCurrent
  perm : (changesOf u.appliedCurrent).Perm changes

variable {keccak M enc store hash deleted} {u : TrieCalculator K V} {changes : List (K × V)}
  {store' : ProofStore} {m : MptMap}

theorem Prepared.mono (h : Prepared keccak M enc store hash deleted u changes)
    (hg : store.rlpPtrs <+: store'.rlpPtrs) :
    Prepared keccak M enc store' hash deleted u changes :=
  { h with live := h.live.mono hg }

/-- An update that waits for nodes stays prepared, one that does not has made all changes.
    It fails only when it deletes a key that the base does not have, and then nothing is left
    to be undone. -/
theorem processUpdate_spec [DecidableEq K] (hlen : ∀ k, (hash k).length = 64) (hdel : enc deleted = none)
    (texts : UpdateTexts) (needsRoot : Bool)
    (h : Prepared keccak M enc store hash deleted u changes) :
    match u.processUpdate texts deleted needsRoot with
    | (u', .ok false) => Prepared keccak M enc store hash deleted u' changes
    | (u', .ok true) => Updated keccak M enc store hash u' changes ∧
        (needsRoot = true → u'.trie.isUninit = false)
    | (u', .error e) => e = .other texts.deleteMissing ∧
        (∃ k, (k, deleted) ∈ changes ∧ M.lookup (hash k) = none) ∧
        Prepared keccak M enc store hash deleted u' changes ∧ undone u'.revertOps = [] := by
  have hrev := revertLoop_spec texts u.revertOps u.trie _ h.live
  simp only [processUpdate, processReverts]
  generalize revertLoop texts u.trie u.revertOps = out at hrev
  obtain ⟨t1, reverts, missing1, res⟩ := out
  obtain ⟨hlive1, rfl, hdone1⟩ := hrev
  by_cases hm1 : missing1 = []
  · subst hm1
    rw [hdone1 rfl, nil_append] at hlive1
    simp only [append_nil, ne_eq, not_true, if_false, processInserts]
    have hins := insertLoop_spec hlen u.insertOps t1 u.appliedCurrent
      (pendingDeletes deleted u.deleteOps)
      ⟨hlive1, h.keyed, (h.perm.map _).nodup_iff.mpr h.apart⟩ h.inserts
    generalize insertLoop t1 u.appliedCurrent u.insertOps = out at hins
    obtain ⟨t2, applied2, inserts2, missing2, res⟩ := out
    obtain ⟨hap2, hwf2, hperm2, rfl, hdone2⟩ := hins
    have hswap : ∀ (a b c : List (K × V)), (a ++ (b ++ c)).Perm (a ++ (c ++ b)) :=
      fun a b c => Perm.append_left a perm_append_comm
    have hdels := deleteLoop_spec hlen texts hdel u.deleteOps t2 applied2 (pendingInserts inserts2)
      ⟨hap2.live, hap2.keyed, ((hswap ..).map _).nodup_iff.mp hap2.apart⟩ h.deletes
    simp only [processDeletes]
    generalize deleteLoop texts deleted t2 applied2 u.deleteOps = out at hdels
    obtain ⟨t3, applied3, deletes3, missing3, res⟩ := out
    obtain ⟨hap3, hwf3, hperm3, hres⟩ := hdels
    have hperm : (changesOf applied3 ++ (pendingInserts inserts2 ++
        pendingDeletes deleted deletes3)).Perm changes :=
      (hswap ..).trans (hperm3.trans ((hswap ..).trans (hperm2.trans h.perm)))
    -- with the changes undone, what is live is what is applied
    have hlive3 : Live keccak M enc store t3 (undone reverts ++ records applied3) := by
      rw [hdone1 rfl]
      exact hap3.live
    rcases hres with ⟨rfl, hdone3⟩ | ⟨rfl, k, hk, hM⟩
    · by_cases hroot : (needsRoot && t3.isUninit) = true
      · have hne : (missing2 ++ missing3 ++ [[]]).isEmpty = false := by simp
        simp only [hroot, if_true, nil_append, hne]
        exact ⟨hlive3, hap3.keyed, hwf2, hwf3, hperm, h.apart, h.drained⟩
      simp only [hroot, Bool.false_eq_true, if_false, nil_append]
      cases hm : (missing2 ++ missing3).isEmpty with
      | false => exact ⟨hlive3, hap3.keyed, hwf2, hwf3, hperm, h.apart, h.drained⟩
      | true =>
        obtain ⟨rfl, rfl⟩ := append_eq_nil_iff.mp (isEmpty_iff.mp hm)
        rw [hdone2 rfl, hdone3 rfl, append_nil, append_nil] at hperm
        refine ⟨⟨hap3.live, hap3.keyed, hperm⟩, fun hneeds => ?_⟩
        rw [hneeds, Bool.true_and] at hroot
        exact Bool.eq_false_iff.mpr hroot
    · refine ⟨rfl, ⟨k, h.perm.mem_iff.mp ?_, hM⟩,
        ⟨hlive3, hap3.keyed, hwf2, hwf3, hperm, h.apart, h.drained⟩, hdone1 rfl⟩
      exact mem_append_right _ (mem_append_right _ hk)
  · simp only [nil_append, ne_eq, hm1, not_false_eq_true, if_true]
    exact { h with live := hlive1 }

/-! ## Preparation -/

variable (enc hash deleted) in
/-- The state while `done` has been compared with the records of the previous iteration and
    `left` are the records still to be compared. The trie is still `t`, and no record of
    the `orig` ones is lost. -/
structure Preparing (t : Trie) (orig : List (AppliedOp V)) (u : TrieCalculator K V)
    (left : List (Sigma fun _ : K => AppliedOp V)) (done : List (K × V)) : Prop where
  trie : u.trie = t
  origin : (undone u.revertOps ++ (records u.appliedCurrent ++ left.map Sigma.snd)).Perm orig
  keyed : Keyed hash u.appliedCurrent
  keyedLeft : ∀ e ∈ left, e.2.revertKey = hash e.1
  inserts : ∀ op ∈ u.insertOps, op.WellFormed hash enc
  deletes : ∀ op ∈ u.deleteOps, op.key = hash op.opKey
  perm : (changesOf u.appliedCurrent ++
    (pendingInserts u.insertOps ++ pendingDeletes deleted u.deleteOps)).Perm done
  nodup : (left.map Sigma.fst ++ done.map Prod.fst).Nodup

variable {left left' : List (Sigma fun _ : K => AppliedOp V)} {done : List (K × V)} {k : K}
  {op : AppliedOp V} {t : Trie} {orig : List (AppliedOp V)}

theorem Preparing.permLeft (h : Preparing enc hash deleted t orig u left done)
    (hp : left.Perm left') : Preparing enc hash deleted t orig u left' done where
  __ := h
  origin := (Perm.append_left _ (Perm.append_left _ (hp.map _))).symm.trans h.origin
  keyedLeft e he := h.keyedLeft e (hp.mem_iff.mpr he)
  nodup := ((hp.map _).append_right _).nodup_iff.mp h.nodup

theorem Preparing.setPrevious (h : Preparing enc hash deleted t orig u left done)
    (previous : AList fun _ : K => AppliedOp V) :
    Preparing enc hash deleted t orig { u with appliedPrevious := previous } left done :=
  { h with }

@[simp] theorem appliedPrevious_pushChange (u : TrieCalculator K V) (k : K) (key : Nibbles) (v : V)
    (value : Option Bytes) :
    (u.pushChange k key v value).appliedPrevious = u.appliedPrevious := by
  cases value <;> rfl

theorem Preparing.notMem_current (h : Preparing enc hash deleted t orig u left done)
    [DecidableEq K] (hk : k ∉ done.map Prod.fst) : k ∉ u.appliedCurrent := by
  intro hmem
  obtain ⟨v, hv⟩ := mem_changesOf hmem
  exact hk (mem_map.mpr ⟨_, h.perm.mem_iff.mp (mem_append_left _ hv), rfl⟩)

/-- A record is kept. -/
theorem Preparing.keep [DecidableEq K]
    (h : Preparing enc hash deleted t orig u (⟨k, op⟩ :: left) done) :
    Preparing enc hash deleted t orig
      { u with appliedCurrent := u.appliedCurrent.insert k op } left
      ((k, op.insertedValue) :: done) := by
  have hnd := h.nodup
  rw [map_cons, cons_append, nodup_cons, mem_append, not_or] at hnd
  have hfresh := h.notMem_current hnd.1.2
  refine ⟨h.trie, Perm.trans ?_ h.origin, keyed_insert h.keyed (h.keyedLeft _ mem_cons_self),
    fun e he => h.keyedLeft e (mem_cons_of_mem _ he), h.inserts, h.deletes, ?_, ?_⟩
  · show (undone u.revertOps ++ (records (u.appliedCurrent.insert k op) ++
      left.map Sigma.snd)).Perm
      (undone u.revertOps ++ (records u.appliedCurrent ++ op :: left.map Sigma.snd))
    rw [records_insert hfresh]
    exact Perm.append_left _ perm_middle.symm
  · rw [changesOf_insert hfresh]
    exact h.perm.cons _
  · exact perm_middle.nodup_iff.mpr (nodup_cons.mpr ⟨by
      rw [mem_append, not_or]; exact hnd.1, hnd.2⟩)

/-- A record is to be undone. -/
theorem Preparing.revert
    (h : Preparing enc hash deleted t orig u (⟨k, op⟩ :: left) done) :
    Preparing enc hash deleted t orig
      { u with revertOps := u.revertOps ++ [(op, false)] } left done := by
  refine ⟨h.trie, Perm.trans ?_ h.origin, h.keyed, fun e he => h.keyedLeft e (mem_cons_of_mem _ he),
    h.inserts, h.deletes, h.perm, (nodup_cons.mp h.nodup).2⟩
  have hundone : undone (u.revertOps ++ [(op, false)]) = undone u.revertOps ++ [op] := by
    simp [undone]
  rw [hundone, append_assoc, singleton_append]
  exact Perm.append_left _ perm_middle.symm

/-- A change is planned. -/
theorem Preparing.push (h : Preparing enc hash deleted t orig u left done)
    (hdel : ∀ v, enc v = none → v = deleted)
    (hk : k ∉ left.map Sigma.fst ++ done.map Prod.fst) (v : V) :
    Preparing enc hash deleted t orig (u.pushChange k (hash k) v (enc v)) left
      ((k, v) :: done) := by
  have hnd : (left.map Sigma.fst ++ ((k, v) :: done).map Prod.fst).Nodup :=
    perm_middle.nodup_iff.mpr (nodup_cons.mpr ⟨hk, h.nodup⟩)
  cases hv : enc v with
  | some value =>
    refine ⟨by rw [← h.trie]; rfl, h.origin, h.keyed, h.keyedLeft, ?_, h.deletes, ?_, hnd⟩
    · intro o ho
      rcases mem_append.mp ho with ho | ho
      · exact h.inserts o ho
      · obtain rfl := mem_singleton.mp ho
        exact ⟨rfl, hv⟩
    have hpend : pendingInserts (u.insertOps ++ [⟨hash k, value, k, v, false⟩]) =
        pendingInserts u.insertOps ++ [(k, v)] := by
      simp [pendingInserts]
    show (changesOf u.appliedCurrent ++ (pendingInserts (u.insertOps ++
      [(⟨hash k, value, k, v, false⟩ : InsertOp K V)]) ++
      pendingDeletes deleted u.deleteOps)).Perm _
    rw [hpend, append_assoc, singleton_append]
    exact (perm_skip ..).symm.trans (perm_middle.trans (h.perm.cons _))
  | none =>
    obtain rfl := hdel v hv
    refine ⟨by rw [← h.trie]; rfl, h.origin, h.keyed, h.keyedLeft, h.inserts, ?_, ?_, hnd⟩
    · intro o ho
      rcases mem_append.mp ho with ho | ho
      · exact h.deletes o ho
      · obtain rfl := mem_singleton.mp ho
        rfl
    have hpend : pendingDeletes v (u.deleteOps ++ [⟨hash k, k, false⟩]) =
        pendingDeletes v u.deleteOps ++ [(k, v)] := by
      simp [pendingDeletes]
    show (changesOf u.appliedCurrent ++ (pendingInserts u.insertOps ++
      pendingDeletes v (u.deleteOps ++ [(⟨hash k, k, false⟩ : DeleteOp K)]))).Perm _
    rw [hpend, ← append_assoc, ← append_assoc]
    refine perm_append_comm.trans ?_
    refine Perm.cons _ ?_
    rw [append_assoc]
    exact h.perm

variable {applied : AList fun _ : K => AppliedOp V}

/-- One change is compared with the records. -/
theorem prepareChange_spec [DecidableEq K] [DecidableEq V] (hdel : ∀ v, enc v = none → v = deleted)
    (h : Preparing enc hash deleted t orig u u.appliedPrevious.entries done)
    (hk : k ∉ done.map Prod.fst) (v : V) :
    Preparing enc hash deleted t orig (u.prepareChange k (hash k) v (enc v))
      (u.prepareChange k (hash k) v (enc v)).appliedPrevious.entries ((k, v) :: done) := by
  unfold prepareChange
  cases hl : u.appliedPrevious.lookup k with
  | none =>
    have hleft : k ∉ u.appliedPrevious.entries.map Sigma.fst ++ done.map Prod.fst := by
      rw [mem_append, not_or]
      exact ⟨lookup_eq_none.mp hl, hk⟩
    simp only [appliedPrevious_pushChange]
    exact h.push hdel hleft v
  | some op =>
    have h' := (h.permLeft (entries_perm_erase hl)).setPrevious (u.appliedPrevious.erase k)
    by_cases hop : op.insertedValue = v
    · subst hop
      simp only [if_true]
      exact h'.keep
    have hleft : k ∉ (u.appliedPrevious.erase k).entries.map Sigma.fst ++ done.map Prod.fst :=
      (nodup_cons.mp h'.nodup).1
    simp only [hop, if_false, appliedPrevious_pushChange]
    exact h'.revert.push hdel hleft v

/-- All changes are compared with the records. -/
theorem prepareAll_spec [DecidableEq K] [DecidableEq V] (hdel : ∀ v, enc v = none → v = deleted)
    (changes : List (K × V)) :
    ∀ (u : TrieCalculator K V) (done : List (K × V)),
      Preparing enc hash deleted t orig u u.appliedPrevious.entries done →
      ((changes ++ done).map Prod.fst).Nodup →
      match changes.foldl (fun u e => u.prepareChange e.1 (hash e.1) e.2 (enc e.2)) u with
      | u' => Preparing enc hash deleted t orig u' u'.appliedPrevious.entries
          (changes.reverse ++ done) := by
  induction changes with
  | nil => intro u done h _; exact h
  | cons e changes ih =>
    intro u done h hnd
    have hk : e.1 ∉ done.map Prod.fst := by
      rw [cons_append, map_cons, nodup_cons, map_append, mem_append, not_or] at hnd
      exact hnd.1.2
    have hnd' : ((changes ++ e :: done).map Prod.fst).Nodup := (perm_middle.map _).nodup_iff.mpr hnd
    have hrec := ih _ _ (prepareChange_spec hdel h hk e.2) hnd'
    rw [reverse_cons, append_assoc, singleton_append]
    exact hrec

/-- The records that are left are kept or undone. -/
theorem drain_foldl [DecidableEq K] (keep : K → Bool) (left : List (Sigma fun _ : K => AppliedOp V)) :
    ∀ (u : TrieCalculator K V) (done : List (K × V)),
      Preparing enc hash deleted t orig u left done →
      Preparing enc hash deleted t orig
        (left.foldl (drainOne keep) u) []
        (((left.filter fun e => keep e.1).map fun e => (e.1, e.2.insertedValue)).reverse ++
          done) := by
  induction left with
  | nil => intro u done h; exact h
  | cons e left ih =>
    intro u done h
    obtain ⟨k, op⟩ := e
    cases hkeep : keep k with
    | true =>
      have hrec := ih _ _ h.keep
      simp only [foldl_cons, drainOne, hkeep, if_true,
        filter_cons_of_pos, map_cons, reverse_cons, append_assoc,
        singleton_append]
      exact hrec
    | false =>
      have hrec := ih _ _ h.revert
      simp only [foldl_cons, drainOne, hkeep, Bool.false_eq_true, if_false,
        not_false_eq_true, filter_cons_of_neg]
      exact hrec

theorem appliedPrevious_drainPrevious [DecidableEq K] (order : HashOrder) (keep : K → Bool)
    (u : TrieCalculator K V) : (u.drainPrevious order keep).appliedPrevious = ∅ := by
  have hfold : ∀ (l : List (Sigma fun _ : K => AppliedOp V)) (u : TrieCalculator K V),
      (l.foldl (drainOne keep) u).appliedPrevious = u.appliedPrevious := by
    intro l
    induction l with
    | nil => intro u; rfl
    | cons e l ih =>
      intro u
      rw [foldl_cons, ih]
      unfold drainOne
      split <;> rfl
  exact hfold ..

theorem Preparing.prepared (h : Preparing enc hash deleted t orig u [] done)
    (hlive : Live keccak M enc store t orig) (hp : done.Perm changes)
    (hapart : (changes.map (hash ∘ Prod.fst)).Nodup) (hdrained : u.appliedPrevious = ∅) :
    Prepared keccak M enc store hash deleted u changes := by
  have horigin := h.origin
  rw [map_nil, append_nil] at horigin
  refine ⟨?_, h.keyed, h.inserts, h.deletes, h.perm.trans hp, hapart, hdrained⟩
  rw [h.trie]
  exact hlive.perm horigin.symm

/-! ## From one update to the next -/

variable (keccak M enc store hash) in
/-- A trie between two updates. -/
structure Kept (u : TrieCalculator K V) : Prop where
  live : Live keccak M enc store u.trie (records u.appliedPrevious)
  keyed : Keyed hash u.appliedPrevious

theorem Kept.mono (h : Kept keccak M enc store hash u)
    (hg : store.rlpPtrs <+: store'.rlpPtrs) : Kept keccak M enc store' hash u :=
  ⟨h.live.mono hg, h.keyed⟩

/-- Nothing has been applied when all there is to do is to delete keys that the base does not
    have. -/
theorem Prepared.kept (h : Prepared keccak M enc store hash deleted u changes)
    (hundone : undone u.revertOps = [])
    (habsent : ∀ e ∈ changes, enc e.2 = none ∧ M.lookup (hash e.1) = none) :
    Kept keccak M enc store hash u := by
  have hlive := h.live
  obtain ⟨m, hm⟩ := h.live
  have hnil : u.appliedCurrent.entries = [] := by
    refine eq_nil_iff_forall_not_mem.mpr fun e he => ?_
    have hmem : (e.1, e.2.insertedValue) ∈ changes :=
      h.perm.mem_iff.mp (mem_append_left _ (mem_map_of_mem he))
    have hop := hm.restores e.2 (mem_append_right _ (mem_map_of_mem he))
    exact hop.deleted (habsent _ hmem).1 (h.keyed e he ▸ (habsent _ hmem).2)
  rw [hundone, records, hnil] at hlive
  constructor
  · rw [h.drained]
    exact hlive
  · rw [h.drained]
    exact fun e he => absurd he not_mem_nil

theorem Keyed.preparing (h : Keyed hash u.appliedPrevious) (enc : V → Option Bytes) (deleted : V)
    (hcur : u.appliedCurrent = ∅) (hrev : u.revertOps = []) (hins : u.insertOps = [])
    (hdels : u.deleteOps = []) :
    Preparing enc hash deleted u.trie (records u.appliedPrevious) u u.appliedPrevious.entries
      [] := by
  refine ⟨rfl, ?_, ?_, h, ?_, ?_, ?_, ?_⟩
  · rw [hcur, hrev]
    exact Perm.refl _
  · rw [hcur]
    exact fun e he => absurd he not_mem_nil
  · simp [hins]
  · simp [hdels]
  · rw [hcur, hins, hdels]
    exact Perm.refl _
  · rw [map_nil, append_nil]
    exact u.appliedPrevious.nodupKeys

/-! ## The map with the changes written -/

variable (enc hash) in
/-- The changes written over a map. -/
def written (m : MptMap) (changes : List (K × V)) : MptMap :=
  changes.foldl (fun m e => write m (hash e.1) (enc e.2)) m

theorem lookup_write (m : MptMap) (key : Nibbles) (v : Option Bytes) :
    (fun q => (write m key v).lookup q) = update (fun q => m.lookup q) key v := by
  cases v with
  | none => exact lookup_erase_eq m key
  | some v => exact lookup_insert_eq m key v

theorem patched_written (m : MptMap) (h : (changes.map (hash ∘ Prod.fst)).Nodup) :
    Patched (fun q => m.lookup q) (fun q => (written enc hash m changes).lookup q)
      (changes.map fun e => (hash e.1, enc e.2)) := by
  have hfold : ∀ (l : List (K × V)) (m : MptMap),
      (fun q => (written enc hash m l).lookup q) =
        (l.map fun e => (hash e.1, enc e.2)).foldl (fun g e => update g e.1 e.2)
          (fun q => m.lookup q) := by
    intro l
    induction l with
    | nil => intro m; rfl
    | cons e l ih =>
      intro m
      rw [map_cons, foldl_cons, ← lookup_write]
      exact ih _
  rw [hfold]
  apply UndoLog.patched_foldl
  rw [map_map]
  exact h

theorem map_entry_records (h : Keyed hash applied) : (records applied).map (entry enc) =
      (changesOf applied).map fun e => (hash e.1, enc e.2) := by
  rw [records, changesOf, map_map, map_map]
  apply map_congr_left
  intro e he
  simp [entry, h e he]

/-- The represented map is the base map with the changes written over it. -/
theorem LiveMap.lookup_eq {t : Trie}
    (h : LiveMap keccak M enc store t m (records applied)) (hkeyed : Keyed hash applied)
    (hp : (changesOf applied).Perm changes) :
    ∀ q, m.lookup q = (written enc hash M changes).lookup q := by
  have hpat := h.patched
  rw [map_entry_records hkeyed] at hpat
  have hperm := hp.map fun e => (hash e.1, enc e.2)
  have hnd : (changes.map (hash ∘ Prod.fst)).Nodup := by
    have := (hpat.perm hperm).nodup
    rw [map_map] at this
    exact this
  exact congrFun (hpat.eq (patched_written M hnd) hperm)

end Process

end SparseMpt
