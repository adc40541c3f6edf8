/-
  The pool of constraints and its subscribers.

  `ConstraintPool` stores the constraints of each block, keeps a bounded cache of those it
  has stored, and forwards commands to subscribers. A subscriber is a channel
  (`ConstraintSender2ConstraintSink`); a subscription that the pool drops leaves the
  receiving end behind, and the receiver may close it at any time.

  The cache and the store drift apart: a removed constraint stays in the cache, and one that
  the cache forgot is stored again. `pool_stores_pending_iff` and
  `subscribers_agree_with_pool_iff` say which steps of a run are wrong for that reason.
-/
import Rbuilder.SparseMpt.Rlp
import Rbuilder.HashMap
import Rbuilder.LruCache
import Rbuilder.Runs

namespace ConstraintInput

open SparseMpt List

structure ConstraintsMessage where
  block : UInt64
  transactions : List Bytes

structure Constraints where
  message : ConstraintsMessage

abbrev ConstraintId := B256

inductive ConstraintPoolCommand where
  | insert (constraint : Constraints)
  | removeBlock (block : UInt64)

def commandTargetBlock : ConstraintPoolCommand → UInt64
  | .insert c => c.message.block
  | .removeBlock b => b

/-! ## Channels -/

/-- A channel with what was sent on it. The receiver closes it. -/
structure Channel where
  sent : List ConstraintPoolCommand := []
  closed : Bool := false

namespace Channel

section

variable (channel : Channel)

def isAlive : Bool := !channel.closed

def send (command : ConstraintPoolCommand) : Bool × Channel :=
  if channel.closed then (false, channel)
  else (true, { channel with sent := channel.sent ++ [command] })

def insertConstraint (constraint : Constraints) : Bool × Channel :=
  channel.send (.insert constraint)

def removeConstraintsForBlock (block : UInt64) : Bool × Channel :=
  channel.send (.removeBlock block)

end

end Channel

structure SinkSubscription where
  sink : Channel
  block : UInt64

/-! ## The pool -/

/-- `dropped` are the subscriptions that the pool has given up. -/
structure ConstraintPool where
  constraintsByBlock : AList fun _ : UInt64 => List Constraints := ∅
  knownConstraints : LruCache (ConstraintId × UInt64) := .new 1000
  sinks : List (Nat × SinkSubscription) := []
  nextSinkId : Nat := 0
  dropped : List (Nat × SinkSubscription) := []

namespace ConstraintPool

section

variable (pool : ConstraintPool)

/-- What is stored for a block. -/
def stored (block : UInt64) : List Constraints := (pool.constraintsByBlock.lookup block).getD []

/-- `sinks.retain`: each subscription is updated, and kept or dropped. -/
def retainSinks (f : SinkSubscription → Bool × SinkSubscription) : ConstraintPool :=
  { pool with
    sinks := pool.sinks.filterMap fun entry =>
      if (f entry.2).1 then some (entry.1, (f entry.2).2) else none
    dropped := pool.dropped ++ pool.sinks.filterMap fun entry =>
      if (f entry.2).1 then none else some (entry.1, (f entry.2).2) }

def addSink (block : UInt64) (sink : Channel) : Nat × ConstraintPool :=
  let sink :=
    match pool.constraintsByBlock.lookup block with
    | some existing => existing.foldl (fun sink c => (sink.insertConstraint c).2) sink
    | none => sink
  (pool.nextSinkId,
    { pool with
      nextSinkId := pool.nextSinkId + 1, sinks := pool.sinks ++ [(pool.nextSinkId, ⟨sink, block⟩)] })

def cleanupExpiredConstraints (currentBlock : UInt64) : ConstraintPool :=
  let expiredBlocks := pool.constraintsByBlock.keys.filter (· < currentBlock)
  { pool with
    constraintsByBlock := expiredBlocks.foldl (fun blocks b => blocks.erase b) pool.constraintsByBlock }

def blockUpdated (currentBlock : UInt64) : ConstraintPool :=
  (pool.cleanupExpiredConstraints currentBlock).retainSinks fun sub =>
    (sub.sink.isAlive && decide (currentBlock ≤ sub.block), sub)

def getConstraintsForBlock (block : UInt64) : List Constraints × ConstraintPool :=
  let pool := pool.cleanupExpiredConstraints block
  (pool.stored block, pool)

end

section Insert

variable (idOf : Constraints → ConstraintId)

/-- `idOf` is the hash of the serialized constraint, `Constraints::id`. -/
def processConstraint (pool : ConstraintPool) (c : Constraints) : ConstraintPool :=
  let block := c.message.block
  if pool.knownConstraints.contains (idOf c, block) then pool
  else
    { pool with
      constraintsByBlock := pool.constraintsByBlock.insert block (pool.stored block ++ [c])
      knownConstraints := pool.knownConstraints.put (idOf c, block) }

def processRemoveBlock (pool : ConstraintPool) (block : UInt64) : ConstraintPool :=
  { pool with constraintsByBlock := pool.constraintsByBlock.erase block }

/-- What a subscription gets from a command, and whether it is kept. -/
def forward (command : ConstraintPoolCommand) (sub : SinkSubscription) : Bool × SinkSubscription :=
  if !sub.sink.isAlive then (false, sub)
  else if sub.block == commandTargetBlock command then
    let (ok, sink) :=
      match command with
      | .insert c => sub.sink.insertConstraint c
      | .removeBlock b => sub.sink.removeConstraintsForBlock b
    (ok, { sub with sink := sink })
  else (true, sub)

def processCommand (pool : ConstraintPool) (command : ConstraintPoolCommand) : ConstraintPool :=
  let pool :=
    match command with
    | .insert c => pool.processConstraint idOf c
    | .removeBlock block => pool.processRemoveBlock block
  pool.retainSinks (forward command)

end Insert

/-- The receiver of a sink closes it. -/
def closeSink (pool : ConstraintPool) (id : Nat) : ConstraintPool :=
  let close := fun (entry : Nat × SinkSubscription) =>
    if entry.1 = id then (entry.1, { entry.2 with sink := { entry.2.sink with closed := true } })
    else entry
  { pool with sinks := pool.sinks.map close, dropped := pool.dropped.map close }

end ConstraintPool

open ConstraintPool

/-! ## Runs -/

inductive PoolOp where
  | command (command : ConstraintPoolCommand)
  | blockUpdated (currentBlock : UInt64)
  | getConstraintsForBlock (block : UInt64)
  | addSink (block : UInt64)
  | closeSink (id : Nat)

section Runs

variable (idOf : Constraints → ConstraintId)

def PoolOp.run (pool : ConstraintPool) : PoolOp → ConstraintPool
  | command c => pool.processCommand idOf c
  | blockUpdated currentBlock => pool.blockUpdated currentBlock
  | getConstraintsForBlock block => (pool.getConstraintsForBlock block).2
  | addSink block => (pool.addSink block {}).2
  | closeSink id => pool.closeSink id

def poolAfter (ops : List PoolOp) : ConstraintPool := ops.foldl (PoolOp.run idOf) {}

theorem poolAfter_append (ops : List PoolOp) (op : PoolOp) :
    poolAfter idOf (ops ++ [op]) = op.run idOf (poolAfter idOf ops) :=
  foldl_append

end Runs

/-! ## The store -/

namespace ConstraintPool

theorem stored_cleanup (pool : ConstraintPool) (currentBlock block : UInt64) :
    (pool.cleanupExpiredConstraints currentBlock).stored block =
      if block < currentBlock then [] else pool.stored block := by
  unfold cleanupExpiredConstraints stored
  rw [AList.lookup_foldl_erase]
  by_cases hlt : block < currentBlock
  · split_ifs with hmem
    · rfl
    have hkey : block ∉ pool.constraintsByBlock := by
      intro hkey
      exact hmem (mem_filter.mpr ⟨hkey, decide_eq_true hlt⟩)
    rw [AList.lookup_eq_none.mpr hkey]
    rfl
  · rw [if_neg hlt, if_neg]
    intro hmem
    exact hlt (of_decide_eq_true (mem_filter.mp hmem).2)

theorem stored_processConstraint (idOf : Constraints → ConstraintId) (pool : ConstraintPool)
    (c : Constraints) (block : UInt64) :
    (pool.processConstraint idOf c).stored block =
      if pool.knownConstraints.contains (idOf c, c.message.block) = false ∧ block = c.message.block then
        pool.stored block ++ [c]
      else pool.stored block := by
  unfold processConstraint
  by_cases hknown : pool.knownConstraints.contains (idOf c, c.message.block) = true
  · rw [if_pos hknown, if_neg (by simp [hknown])]
  rw [if_neg hknown]
  by_cases hblock : block = c.message.block
  · subst hblock
    rw [if_pos ⟨by simpa using hknown, rfl⟩]
    simp [stored]
  · rw [if_neg fun h => hblock h.2]
    simp [stored, AList.lookup_insert_ne hblock]

theorem stored_processRemoveBlock (pool : ConstraintPool) (removed block : UInt64) :
    (pool.processRemoveBlock removed).stored block =
      if block = removed then [] else pool.stored block := by
  unfold processRemoveBlock stored
  rw [AList.lookup_erase_eq_ite]
  split_ifs <;> rfl

end ConstraintPool

section Store

variable (idOf : Constraints → ConstraintId)

/-- What is pending for a block after the operations; `none` after the block has expired, until
    it is removed. -/
def pendingStep (block : UInt64) (pending : Option (List Constraints)) :
    PoolOp → Option (List Constraints)
  | .command (.insert c) =>
    if c.message.block = block then
      pending.map fun l => if idOf c ∈ l.map idOf then l else l ++ [c]
    else pending
  | .command (.removeBlock b) => if b = block then some [] else pending
  | .blockUpdated h | .getConstraintsForBlock h => if block < h then none else pending
  | .addSink _ | .closeSink _ => pending

def pending (block : UInt64) (ops : List PoolOp) : Option (List Constraints) :=
  ops.foldl (pendingStep idOf block) (some [])

theorem pending_append (block : UInt64) (ops : List PoolOp) (op : PoolOp) :
    pending idOf block (ops ++ [op]) = pendingStep idOf block (pending idOf block ops) op :=
  foldl_append

/-- Reading a block that has not expired returns what is pending. -/
def StoresPending (ops : List PoolOp) : Prop :=
  ∀ block l, pending idOf block ops = some l →
    ((poolAfter idOf ops).getConstraintsForBlock block).1 = l

/-- A constraint that is inserted for a block that has not expired is in the cache exactly if
    it is stored. -/
def CacheMatches (ops : List PoolOp) : PoolOp → Prop
  | .command (.insert c) => pending idOf c.message.block ops ≠ none →
    ((poolAfter idOf ops).knownConstraints.contains (idOf c, c.message.block) = true ↔
      idOf c ∈ ((poolAfter idOf ops).stored c.message.block).map idOf)
  | _ => True

theorem getConstraintsForBlock_fst (pool : ConstraintPool) (block : UInt64) :
    (pool.getConstraintsForBlock block).1 = pool.stored block := by
  change (pool.cleanupExpiredConstraints block).stored block = _
  rw [stored_cleanup, if_neg (UInt64.lt_irrefl block)]

variable (ops : List PoolOp)

theorem storesPending_insert (c : Constraints) (h : StoresPending idOf ops) :
    StoresPending idOf (ops ++ [.command (.insert c)]) ↔
      CacheMatches idOf ops (.command (.insert c)) := by
  have hstored (block : UInt64) : (poolAfter idOf (ops ++ [.command (.insert c)])).stored block =
      ((poolAfter idOf ops).processConstraint idOf c).stored block := by
    rw [poolAfter_append]
    rfl
  unfold StoresPending CacheMatches at *
  simp only [getConstraintsForBlock_fst, pending_append, pendingStep, hstored,
    stored_processConstraint] at h ⊢
  constructor
  · intro hafter hpending
    obtain ⟨l, hl⟩ := Option.ne_none_iff_exists'.mp hpending
    have hbefore := h c.message.block l hl
    have hnext := hafter c.message.block (if idOf c ∈ l.map idOf then l else l ++ [c])
      (by rw [if_pos rfl, hl]; rfl)
    rw [hbefore] at hnext ⊢
    by_cases hmem : idOf c ∈ l.map idOf
    · rw [if_pos hmem] at hnext
      refine iff_of_true ?_ hmem
      by_contra hknown
      rw [if_pos ⟨by simpa using hknown, rfl⟩] at hnext
      simp at hnext
    rw [if_neg hmem] at hnext
    refine iff_of_false ?_ hmem
    intro hknown
    rw [if_neg (by simp [hknown])] at hnext
    simp at hnext
  · intro hmatches block l hl
    by_cases hblock : c.message.block = block
    · subst hblock
      rw [if_pos rfl] at hl
      obtain ⟨l', hl', rfl⟩ := Option.map_eq_some_iff.mp hl
      have hbefore := h c.message.block l' hl'
      have hiff := hmatches (by rw [hl']; simp)
      rw [hbefore] at hiff ⊢
      by_cases hmem : idOf c ∈ l'.map idOf
      · rw [if_pos hmem, if_neg (by simp [hiff.mpr hmem])]
      · rw [if_neg hmem, if_pos ⟨by simpa using fun hk => hmem (hiff.mp hk), rfl⟩]
    · rw [if_neg hblock] at hl
      rw [if_neg fun hb => hblock hb.2.symm]
      exact h block l hl

theorem storesPending_step (op : PoolOp) (h : StoresPending idOf ops) :
    StoresPending idOf (ops ++ [op]) ↔ CacheMatches idOf ops op := by
  have hcleanup (h' : UInt64) (block : UInt64) (l : List Constraints)
      (hl : (if block < h' then none else pending idOf block ops) = some l) :
      ((poolAfter idOf ops).cleanupExpiredConstraints h').stored block = l := by
    rw [stored_cleanup]
    by_cases hlt : block < h'
    · rw [if_pos hlt] at hl
      cases hl
    · rw [if_neg hlt] at hl ⊢
      rw [← getConstraintsForBlock_fst]
      exact h block l hl
  cases op with
  | command command =>
    cases command with
    | insert c => exact storesPending_insert idOf ops c h
    | removeBlock b =>
      refine iff_of_true ?_ trivial
      intro block l hl
      rw [pending_append, pendingStep] at hl
      rw [getConstraintsForBlock_fst, poolAfter_append]
      change ((poolAfter idOf ops).processRemoveBlock b).stored block = l
      rw [stored_processRemoveBlock]
      by_cases hblock : block = b
      · rw [if_pos hblock]
        rw [if_pos hblock.symm] at hl
        exact Option.some.inj hl
      · rw [if_neg hblock, ← getConstraintsForBlock_fst]
        rw [if_neg (Ne.symm hblock)] at hl
        exact h block l hl
  | blockUpdated height | getConstraintsForBlock height =>
    refine iff_of_true ?_ trivial
    intro block l hl
    rw [getConstraintsForBlock_fst, poolAfter_append]
    rw [pending_append] at hl
    exact hcleanup height block l hl
  | addSink b | closeSink id =>
    refine iff_of_true ?_ trivial
    intro block l hl
    rw [pending_append] at hl
    rw [poolAfter_append]
    exact h block l hl

/-- In a run every read of a block that has not expired returns the pending constraints, if
    and only if at every insert the cache has the constraint exactly if it is stored. -/
theorem pool_stores_pending_iff :
    (∀ done, done <+: ops → StoresPending idOf done) ↔
      ∀ done op, done ++ [op] <+: ops → CacheMatches idOf done op := by
  refine Runs.forall_states_iff ?_ (storesPending_step idOf) ops
  intro block l hl
  exact Option.some.inj hl

end Store

/-! ## Subscribers -/

/-- What the receiver holds after the calls. -/
def held (sent : List ConstraintPoolCommand) : List Constraints :=
  sent.foldl (fun l command =>
    match command with
    | .insert c => l ++ [c]
    | .removeBlock b => l.filter fun c => c.message.block != b) []

variable (sent : List ConstraintPoolCommand)

theorem held_insert (c : Constraints) :
    held (sent ++ [.insert c]) = held sent ++ [c] :=
  foldl_append

theorem held_removeBlock (b : UInt64) :
    held (sent ++ [.removeBlock b]) = (held sent).filter fun c => c.message.block != b :=
  foldl_append

/-- A subscriber that is not closed holds what is stored for its block. -/
def Agrees (pool : ConstraintPool) (sub : SinkSubscription) : Prop :=
  sub.sink.closed = true ∨ (held sub.sink.sent).Perm (pool.stored sub.block)

/-- All subscribers, also those that the pool has dropped. -/
def SinksAgree (pool : ConstraintPool) : Prop :=
  (∀ entry ∈ pool.sinks, Agrees pool entry.2) ∧ ∀ entry ∈ pool.dropped, Agrees pool entry.2

theorem Agrees.congr {pool pool' : ConstraintPool} {sub : SinkSubscription}
    (hstored : pool'.stored sub.block = pool.stored sub.block) :
    Agrees pool' sub ↔ Agrees pool sub := by
  unfold Agrees
  rw [hstored]

/-- Where nothing is stored any more, nothing was held before. -/
theorem Agrees.perm_nil_iff {pool : ConstraintPool} {sub : SinkSubscription} (h : Agrees pool sub) :
    sub.sink.closed = true ∨ (held sub.sink.sent).Perm [] ↔
      sub.sink.closed = true ∨ pool.stored sub.block = [] := by
  rw [perm_nil]
  refine or_congr_right' fun hopen => ?_
  have hperm := h.resolve_left hopen
  exact ⟨fun hnil => (hnil ▸ hperm).nil_eq.symm, fun hnil => (hnil ▸ hperm).eq_nil⟩

/-- A subscriber that holds what is stored, while one more constraint is stored. -/
theorem not_perm_append {l l' : List Constraints} {c : Constraints} (h : l.Perm l') :
    ¬ l.Perm (l' ++ [c]) ∧ ¬ (l ++ [c]).Perm l' := by
  have hlen := h.length_eq
  refine ⟨fun h' => ?_, fun h' => ?_⟩
  · have hlen' := h'.length_eq
    rw [length_append, length_singleton] at hlen'
    omega
  · have hlen' := h'.length_eq
    rw [length_append, length_singleton] at hlen'
    omega

namespace ConstraintPool

theorem sinksAgree_retainSinks (pool : ConstraintPool) (f : SinkSubscription → Bool × SinkSubscription) :
    SinksAgree (pool.retainSinks f) ↔
      (∀ entry ∈ pool.sinks, Agrees pool (f entry.2).2) ∧
        ∀ entry ∈ pool.dropped, Agrees pool entry.2 := by
  constructor
  · rintro ⟨hsinks, hdropped⟩
    refine ⟨?_, fun entry hmem => hdropped entry (mem_append_left _ hmem)⟩
    intro entry hmem
    by_cases hkeep : (f entry.2).1
    · refine hsinks (entry.1, (f entry.2).2) (mem_filterMap.mpr ⟨entry, hmem, ?_⟩)
      rw [if_pos hkeep]
    · refine hdropped (entry.1, (f entry.2).2)
        (mem_append_right _ (mem_filterMap.mpr ⟨entry, hmem, ?_⟩))
      rw [if_neg hkeep]
  rintro ⟨hsinks, hdropped⟩
  refine ⟨?_, ?_⟩
  · intro entry hmem
    obtain ⟨old, hold, heq⟩ := mem_filterMap.mp hmem
    split_ifs at heq
    cases heq
    exact hsinks old hold
  intro entry hmem
  rcases mem_append.mp hmem with hmem | hmem
  · exact hdropped entry hmem
  obtain ⟨old, hold, heq⟩ := mem_filterMap.mp hmem
  split_ifs at heq
  cases heq
  exact hsinks old hold

variable {command : ConstraintPoolCommand} {sub : SinkSubscription}

theorem forward_closed (h : sub.sink.closed = true) : (forward command sub).2 = sub := by
  unfold forward Channel.isAlive
  rw [h]
  rfl

theorem forward_other
    (h : sub.block ≠ commandTargetBlock command) : (forward command sub).2 = sub := by
  unfold forward
  rw [if_neg (by simpa using h : ¬ (sub.block == commandTargetBlock command) = true)]
  split_ifs <;> rfl

theorem forward_open (command : ConstraintPoolCommand)
    (hopen : sub.sink.closed = false) (h : sub.block = commandTargetBlock command) :
    (forward command sub).2 =
      { sub with sink := { sub.sink with sent := sub.sink.sent ++ [command] } } := by
  unfold forward Channel.isAlive
  rw [hopen, if_neg (by simp), if_pos (by simpa using h)]
  cases command with
  | insert c => simp [Channel.insertConstraint, Channel.send, hopen]
  | removeBlock b => simp [Channel.removeConstraintsForBlock, Channel.send, hopen]

end ConstraintPool

/-- The step keeps subscribers and pool in step: no known constraint reaches a subscriber, and
    nothing changes for a block with a subscriber that does not hear of it. -/
def KeepsSinks (idOf : Constraints → ConstraintId) (pool : ConstraintPool) : PoolOp → Prop
  | .command (.insert c) =>
    if pool.knownConstraints.contains (idOf c, c.message.block) then
      ∀ entry ∈ pool.sinks, entry.2.block = c.message.block → entry.2.sink.closed = true
    else ∀ entry ∈ pool.dropped, entry.2.block = c.message.block → entry.2.sink.closed = true
  | .command (.removeBlock b) =>
    ∀ entry ∈ pool.dropped, entry.2.block = b → entry.2.sink.closed = true ∨ pool.stored b = []
  | .blockUpdated h | .getConstraintsForBlock h =>
    ∀ entry ∈ pool.sinks ++ pool.dropped, entry.2.block < h →
      entry.2.sink.closed = true ∨ pool.stored entry.2.block = []
  | .addSink _ | .closeSink _ => True

section Subscribers

variable (idOf : Constraints → ConstraintId) {pool : ConstraintPool}

section

variable (h : SinksAgree pool)
include h

theorem sinksAgree_insert (c : Constraints) :
    SinksAgree (pool.processCommand idOf (.insert c)) ↔ KeepsSinks idOf pool (.command (.insert c)) := by
  have hsame : (pool.processConstraint idOf c).sinks = pool.sinks ∧
      (pool.processConstraint idOf c).dropped = pool.dropped := by
    unfold processConstraint
    dsimp only
    split_ifs
    · exact ⟨rfl, rfl⟩
    · exact ⟨rfl, rfl⟩
  have hstored := stored_processConstraint idOf pool c
  change SinksAgree ((pool.processConstraint idOf c).retainSinks _) ↔ _
  rw [sinksAgree_retainSinks, hsame.1, hsame.2]
  -- subscribers of other blocks agree as before
  have hother {sub : SinkSubscription} (hblock : sub.block ≠ c.message.block) (hold : Agrees pool sub) :
      Agrees (pool.processConstraint idOf c) sub := by
    refine (Agrees.congr ?_).mpr hold
    rw [hstored, if_neg fun hb => hblock hb.2]
  unfold KeepsSinks
  dsimp only
  by_cases hknown : pool.knownConstraints.contains (idOf c, c.message.block) = true
  · have hpool (block : UInt64) : (pool.processConstraint idOf c).stored block = pool.stored block := by
      rw [hstored, if_neg (by simp [hknown])]
    rw [if_pos hknown, and_iff_left fun entry hmem => (Agrees.congr (hpool _)).mpr (h.2 entry hmem)]
    refine forall₂_congr fun entry hmem => ?_
    by_cases hblock : entry.2.block = c.message.block
    · by_cases hclosed : entry.2.sink.closed = true
      · rw [forward_closed hclosed]
        exact iff_of_true (.inl hclosed) fun _ => hclosed
      · refine iff_of_false (fun hafter => ?_) fun hkeeps => hclosed (hkeeps hblock)
        rw [forward_open (.insert c) (Bool.not_eq_true _ ▸ hclosed) hblock] at hafter
        have hperm := hafter.resolve_left hclosed
        rw [held_insert, hpool] at hperm
        exact (not_perm_append ((h.1 entry hmem).resolve_left hclosed)).2 hperm
    · rw [forward_other hblock]
      exact iff_of_true (hother hblock (h.1 entry hmem)) fun hb => (hblock hb).elim
  · have hpool : (pool.processConstraint idOf c).stored c.message.block =
        pool.stored c.message.block ++ [c] := by
      rw [hstored, if_pos ⟨by simpa using hknown, rfl⟩]
    have hsinks : ∀ entry ∈ pool.sinks,
        Agrees (pool.processConstraint idOf c) (forward (.insert c) entry.2).2 := by
      intro entry hmem
      by_cases hblock : entry.2.block = c.message.block
      · by_cases hclosed : entry.2.sink.closed = true
        · rw [forward_closed hclosed]
          exact .inl hclosed
        · rw [forward_open (.insert c) (Bool.not_eq_true _ ▸ hclosed) hblock]
          have hperm := (h.1 entry hmem).resolve_left hclosed
          refine .inr ?_
          dsimp only
          rw [hblock] at hperm ⊢
          rw [held_insert, hpool]
          exact hperm.append_right [c]
      · rw [forward_other hblock]
        exact hother hblock (h.1 entry hmem)
    rw [if_neg hknown, and_iff_right hsinks]
    refine forall₂_congr fun entry hmem => ?_
    by_cases hblock : entry.2.block = c.message.block
    · refine ⟨fun hafter _ => ?_, fun hkeeps => .inl (hkeeps hblock)⟩
      by_contra hclosed
      have hbefore := (h.2 entry hmem).resolve_left hclosed
      have hperm := hafter.resolve_left hclosed
      rw [hblock] at hbefore hperm
      rw [hpool] at hperm
      exact (not_perm_append hbefore).1 hperm
    · exact iff_of_true (hother hblock (h.2 entry hmem)) fun hb => (hblock hb).elim

theorem sinksAgree_removeBlock
    (hblocks : ∀ block, ∀ c ∈ pool.stored block, c.message.block = block) (b : UInt64) :
    SinksAgree (pool.processCommand idOf (.removeBlock b)) ↔
      KeepsSinks idOf pool (.command (.removeBlock b)) := by
  have hstored := stored_processRemoveBlock pool b
  change SinksAgree ((pool.processRemoveBlock b).retainSinks _) ↔ _
  rw [sinksAgree_retainSinks]
  have hsinks : ∀ entry ∈ pool.sinks, Agrees (pool.processRemoveBlock b)
      (forward (.removeBlock b) entry.2).2 := by
    intro entry hmem
    by_cases hblock : entry.2.block = b
    · by_cases hopen : entry.2.sink.closed = true
      · rw [forward_closed hopen]
        exact Or.inl hopen
      -- all that the receiver holds is of this block
      have hbefore := h.1 entry hmem
      rw [Bool.not_eq_true] at hopen
      rw [forward_open (.removeBlock b) hopen hblock]
      unfold Agrees at hbefore ⊢
      simp only [hopen, Bool.false_eq_true, false_or] at hbefore ⊢
      rw [held_removeBlock, hstored, if_pos hblock, filter_eq_nil_iff.mpr]
      intro c hc
      have hcb := hblocks _ c (hbefore.mem_iff.mp hc)
      simp [hcb, hblock]
    · rw [forward_other hblock]
      refine (Agrees.congr ?_).mpr (h.1 entry hmem)
      rw [hstored, if_neg hblock]
  refine Iff.trans (and_iff_right hsinks) (forall₂_congr fun entry hmem => ?_)
  have hbefore := h.2 entry hmem
  by_cases hblock : entry.2.block = b
  · subst hblock
    rw [Agrees, hstored, if_pos rfl, hbefore.perm_nil_iff]
    simp only [forall_const]
  · refine iff_of_true ((Agrees.congr ?_).mpr hbefore) fun hb => (hblock hb).elim
    rw [hstored, if_neg hblock]

/-- Nobody hears that blocks expire. -/
theorem sinksAgree_cleanup (currentBlock : UInt64) :
    SinksAgree (pool.cleanupExpiredConstraints currentBlock) ↔
      ∀ entry ∈ pool.sinks ++ pool.dropped, entry.2.block < currentBlock →
        entry.2.sink.closed = true ∨ pool.stored entry.2.block = [] := by
  have hentry (sub : SinkSubscription) (hbefore : Agrees pool sub) :
      Agrees (pool.cleanupExpiredConstraints currentBlock) sub ↔
        (sub.block < currentBlock → sub.sink.closed = true ∨ pool.stored sub.block = []) := by
    rw [Agrees, stored_cleanup]
    by_cases hlt : sub.block < currentBlock
    · rw [if_pos hlt, hbefore.perm_nil_iff]
      simp only [hlt, forall_const]
    · rw [if_neg hlt]
      exact iff_of_true hbefore fun h' => (hlt h').elim
  rw [forall_mem_append]
  exact and_congr (forall₂_congr fun entry hmem => hentry entry.2 (h.1 entry hmem))
    (forall₂_congr fun entry hmem => hentry entry.2 (h.2 entry hmem))

theorem sinksAgree_addSink (block : UInt64) :
    SinksAgree (pool.addSink block {}).2 := by
  have hreplay (existing : List Constraints) (sent : List ConstraintPoolCommand) :
      existing.foldl (fun sink c => (Channel.insertConstraint sink c).2) { sent := sent } =
        { sent := sent ++ existing.map .insert } := by
    induction existing generalizing sent with
    | nil => simp
    | cons c existing ih =>
      change existing.foldl (fun sink c => (Channel.insertConstraint sink c).2)
        { sent := sent ++ [.insert c] } = _
      rw [ih, append_assoc]
      rfl
  have hheld (existing : List Constraints) : held (existing.map .insert) = existing := by
    induction existing using reverseRecOn with
    | nil => rfl
    | append_singleton existing c ih =>
      rw [map_append, map_singleton, held_insert, ih]
  refine ⟨?_, h.2⟩
  intro entry hmem
  rcases mem_append.mp hmem with hold | hnew
  · exact h.1 entry hold
  rw [mem_singleton.mp hnew]
  unfold Agrees stored
  dsimp only [addSink]
  cases pool.constraintsByBlock.lookup block with
  | none => exact Or.inr (Perm.refl _)
  | some existing =>
    dsimp only
    rw [hreplay, nil_append, hheld]
    exact Or.inr (Perm.refl _)

theorem sinksAgree_closeSink (id : Nat) : SinksAgree (pool.closeSink id) := by
  have hentry (entry : Nat × SinkSubscription) (hold : Agrees pool entry.2) :
      Agrees (pool.closeSink id) (if entry.1 = id then
        (entry.1, { entry.2 with sink := { entry.2.sink with closed := true } }) else entry).2 := by
    by_cases hid : entry.1 = id
    · rw [if_pos hid]
      exact Or.inl rfl
    · rw [if_neg hid]
      exact hold
  refine ⟨?_, ?_⟩
  · intro entry hmem
    obtain ⟨old, hold, rfl⟩ := mem_map.mp hmem
    exact hentry old (h.1 old hold)
  · intro entry hmem
    obtain ⟨old, hold, rfl⟩ := mem_map.mp hmem
    exact hentry old (h.2 old hold)

end

variable (ops : List PoolOp)

/-- What is stored for a block is for this block. -/
theorem block_of_mem_stored :
    ∀ block, ∀ c ∈ (poolAfter idOf ops).stored block, c.message.block = block := by
  induction ops using reverseRecOn with
  | nil =>
    intro block c hc
    cases hc
  | append_singleton ops op ih =>
    have hcleanup (currentBlock block : UInt64) : ∀ c ∈
        ((poolAfter idOf ops).cleanupExpiredConstraints currentBlock).stored block,
        c.message.block = block := by
      intro c hc
      rw [stored_cleanup] at hc
      split_ifs at hc
      · cases hc
      · exact ih block c hc
    rw [poolAfter_append]
    intro block c hc
    cases op with
    | command command =>
      cases command with
      | insert new =>
        change c ∈ ((poolAfter idOf ops).processConstraint idOf new).stored block at hc
        rw [stored_processConstraint] at hc
        split_ifs at hc with hnew
        · rcases mem_append.mp hc with hc | hc
          · exact ih block c hc
          · rw [mem_singleton.mp hc, hnew.2]
        · exact ih block c hc
      | removeBlock b =>
        change c ∈ ((poolAfter idOf ops).processRemoveBlock b).stored block at hc
        rw [stored_processRemoveBlock] at hc
        split_ifs at hc
        · cases hc
        · exact ih block c hc
    | blockUpdated height | getConstraintsForBlock height => exact hcleanup height block c hc
    | addSink b | closeSink id => exact ih block c hc

theorem sinksAgree_step (op : PoolOp) (h : SinksAgree (poolAfter idOf ops)) :
    SinksAgree (poolAfter idOf (ops ++ [op])) ↔ KeepsSinks idOf (poolAfter idOf ops) op := by
  rw [poolAfter_append]
  cases op with
  | command command =>
    cases command with
    | insert c => exact sinksAgree_insert idOf h c
    | removeBlock b => exact sinksAgree_removeBlock idOf h (block_of_mem_stored idOf ops) b
  | blockUpdated currentBlock =>
    change SinksAgree (retainSinks ..) ↔ _
    rw [sinksAgree_retainSinks]
    exact sinksAgree_cleanup h currentBlock
  | getConstraintsForBlock read => exact sinksAgree_cleanup h read
  | addSink b => exact iff_of_true (sinksAgree_addSink h b) trivial
  | closeSink id => exact iff_of_true (sinksAgree_closeSink h id) trivial

/-- In a run every subscriber that is not closed holds what the pool holds for its block at
    all times, if and only if every step keeps them in step. -/
theorem subscribers_agree_with_pool_iff :
    (∀ done, done <+: ops → SinksAgree (poolAfter idOf done)) ↔
      ∀ done op, done ++ [op] <+: ops → KeepsSinks idOf (poolAfter idOf done) op := by
  refine Runs.forall_states_iff (P := fun done => SinksAgree (poolAfter idOf done)) ?_
    (sinksAgree_step idOf) ops
  refine ⟨?_, ?_⟩
  · intro entry hmem
    cases hmem
  · intro entry hmem
    cases hmem

end Subscribers

/-! ### Examples -/

/-- A constraint without transactions for block 5. -/
def exampleConstraint : Constraints := ⟨⟨5, []⟩⟩

/-- A constraint that is sent again after its block was removed is pending, but not stored. -/
theorem removed_constraint_not_stored_again :
    let ops : List PoolOp := [.command (.insert exampleConstraint), .command (.removeBlock 5),
      .command (.insert exampleConstraint)]
    pending (fun _ => .zero) 5 ops = some [exampleConstraint] ∧
      ((poolAfter (fun _ => .zero) ops).getConstraintsForBlock 5).1 = [] :=
  ⟨rfl, rfl⟩

/-- A constraint that is sent twice is stored once and reaches the subscriber twice, and the
    subscriber does not hear that the block expired. -/
theorem subscriber_holds_repeated_and_expired :
    let ops : List PoolOp := [.addSink 5, .command (.insert exampleConstraint),
      .command (.insert exampleConstraint)]
    ((poolAfter (fun _ => .zero) ops).sinks.map fun entry => held entry.2.sink.sent) =
        [[exampleConstraint, exampleConstraint]] ∧
      (poolAfter (fun _ => .zero) ops).stored 5 = [exampleConstraint] ∧
      ((poolAfter (fun _ => .zero) (ops ++ [.blockUpdated 6])).dropped.map fun entry =>
        held entry.2.sink.sent) = [[exampleConstraint, exampleConstraint]] ∧
      (poolAfter (fun _ => .zero) (ops ++ [.blockUpdated 6])).stored 5 = [] :=
  ⟨rfl, rfl, rfl, rfl⟩

end ConstraintInput
