/-
  The backup of failed commits, `rbuilder-utils/src/clickhouse/backup/mod.rs`.

  Commits that could not be written to disk are held in memory, newest first. A commit that
  arrives may push out the oldest one, but only one, and the size of the memory is reported
  before that: `memory_backup_within_limit_iff` says that the limit and the reports are right
  exactly as long as nothing has to go. On shutdown every commit is saved to disk, also those
  that were delivered just before, and the commit that waits to be retried is forgotten
  (`ended_persists_iff`).
-/
import Mathlib.Algebra.Order.Ring.Nat

namespace Clickhouse

open List

structure Quantities where
  bytes : Nat
  rows : Nat
  transactions : Nat
  deriving DecidableEq

structure FailedCommit (ρ : Type) where
  rows : List ρ
  quantities : Quantities
  deriving DecidableEq

inductive BackupSource where
  | disk (key : Nat)
  | memory
  deriving DecidableEq

structure RetrievedFailedCommit (ρ : Type) where
  source : BackupSource
  commit : FailedCommit ρ

structure BackupSourceStats where
  sizeBytes : Nat := 0
  totalBatches : Nat := 0
  deriving DecidableEq

variable {ρ : Type}

/-- `FailedCommits::quantities`: sums of 64 bits. -/
def quantities (commits : List (FailedCommit ρ)) : Quantities :=
  let sum (part : Quantities → Nat) := (commits.map fun c => part c.quantities).sum % 2 ^ 64
  ⟨sum Quantities.bytes, sum Quantities.rows, sum Quantities.transactions⟩

/-! ## The memory -/

structure MemoryBackup (ρ : Type) where
  failedCommits : List (FailedCommit ρ) := []
  maxSizeBytes : Nat
  stats : BackupSourceStats := {}

namespace MemoryBackup

variable (m : MemoryBackup ρ)

def updateStats : MemoryBackup ρ :=
  { m with stats := ⟨(quantities m.failedCommits).bytes, m.failedCommits.length⟩ }

def thresholdExceeded : Bool := m.stats.sizeBytes > m.maxSizeBytes && m.failedCommits.length > 1

/-- The quantities are those of the commits that stay, not of the one that is dropped. -/
def dropExcess : Option (BackupSourceStats × Quantities) × MemoryBackup ρ :=
  if m.thresholdExceeded then
    let m := updateStats { m with failedCommits := m.failedCommits.dropLast }
    (some (m.stats, quantities m.failedCommits), m)
  else (none, m)

def save (data : FailedCommit ρ) : MemoryBackup ρ :=
  updateStats { m with failedCommits := data :: m.failedCommits }

def retrieveOldest : Option (FailedCommit ρ) × MemoryBackup ρ :=
  (m.failedCommits.getLast?, updateStats { m with failedCommits := m.failedCommits.dropLast })

end MemoryBackup

/-! ## The actor -/

/-- The calls of `Metrics` about the memory. -/
inductive Metric where
  | memoryBackupSize (stats : BackupSourceStats)
  | backupDataLost (quantities : Quantities)
  | backupEmptySize
  deriving DecidableEq

/-- `lastCached` waits to be retried, `metrics` is what was reported. -/
structure Backup (ρ : Type) where
  memoryBackup : MemoryBackup ρ
  lastCached : Option (RetrievedFailedCommit ρ) := none
  metrics : List Metric := []

namespace Backup

variable (b : Backup ρ)

def notFromMemory (cached : RetrievedFailedCommit ρ) : Bool := cached.source ≠ .memory

/-- `saved`: the commit could be written to disk. -/
def backup (saved : Bool) (failedCommit : FailedCommit ρ) : Backup ρ :=
  if saved then b
  else
    let memoryBackup := b.memoryBackup.save failedCommit
    let metrics := b.metrics ++ [.memoryBackupSize memoryBackup.stats]
    match memoryBackup.dropExcess with
    | (some (_, oldestQuantities), memoryBackup) =>
      { memoryBackup
        lastCached := b.lastCached.filter notFromMemory
        metrics := metrics ++ [.backupDataLost oldestQuantities] }
    | (none, memoryBackup) => { b with memoryBackup, metrics }

/-- `disk` is what the disk backup gives. -/
def retrieveOldest (disk : Option (RetrievedFailedCommit ρ)) :
    Option (RetrievedFailedCommit ρ) × Backup ρ :=
  match b.lastCached with
  | some cached => (some cached, { b with lastCached := none })
  | none =>
    let (commit, memoryBackup) := b.memoryBackup.retrieveOldest
    match commit with
    | some commit => (some ⟨.memory, commit⟩, { b with memoryBackup })
    | none => (disk, { b with memoryBackup })

/-- What may happen while the actor runs. -/
inductive Event (ρ : Type) where
  | failed (saved : Bool) (c : FailedCommit ρ)
  | tick (disk : Option (RetrievedFailedCommit ρ)) (committed : Bool)

def step : Event ρ → Backup ρ
  | .failed saved c => b.backup saved c
  | .tick disk committed =>
    match b.retrieveOldest disk with
    | (none, b) => { b with metrics := b.metrics ++ [.backupEmptySize] }
    | (some oldest, b) => if committed then b else { b with lastCached := some oldest }

def run (maxSizeBytes : Nat) (events : List (Event ρ)) : Backup ρ :=
  events.foldl step { memoryBackup := { maxSizeBytes } }

/-! ## The limit -/

/-- The bytes of the commits. -/
def totalBytes (commits : List (FailedCommit ρ)) : Nat :=
  (commits.map fun c => c.quantities.bytes).sum

/-- The commits held in memory, newest first. -/
def held : List (FailedCommit ρ) := b.memoryBackup.failedCommits

/-- The limit holds, or there is one commit. -/
def WithinLimit : Prop := totalBytes b.held ≤ b.memoryBackup.maxSizeBytes ∨ b.held.length = 1

/-- The size that was reported last. -/
def reportedSize : Option BackupSourceStats :=
  b.metrics.reverse.findSome? fun
    | .memoryBackupSize stats => some stats
    | _ => none

/-- The statistics and the last report are the totals. -/
def Accurate : Prop :=
  b.memoryBackup.stats = ⟨totalBytes b.held, b.held.length⟩ ∧
    b.reportedSize = some ⟨totalBytes b.held, b.held.length⟩

/-- There is room for the commit, and the sum is a machine word. -/
def HasRoom (c : FailedCommit ρ) : Prop :=
  totalBytes (c :: b.held) < 2 ^ 64 ∧
    (b.held = [] ∨ totalBytes (c :: b.held) ≤ b.memoryBackup.maxSizeBytes)

variable {b}

/-- What a commit that cannot be written to disk leaves, if none has to go. -/
theorem backup_of_not_exceeded {c : FailedCommit ρ}
    (h : (b.memoryBackup.save c).thresholdExceeded = false) :
    b.backup false c = { b with
      memoryBackup := b.memoryBackup.save c
      metrics := b.metrics ++ [.memoryBackupSize (b.memoryBackup.save c).stats] } := by
  simp [backup, MemoryBackup.dropExcess, h]

/-- A dropped commit is still part of the last report. -/
theorem not_accurate_of_exceeded {c : FailedCommit ρ}
    (h : (b.memoryBackup.save c).thresholdExceeded = true) : ¬ (b.backup false c).Accurate := by
  have hmemory : (b.backup false c).memoryBackup = (b.memoryBackup.save c).dropExcess.2 := by
    simp [backup, MemoryBackup.dropExcess, h]
  have hreported : (b.backup false c).reportedSize = some (b.memoryBackup.save c).stats := by
    simp [backup, MemoryBackup.dropExcess, h, reportedSize]
  intro hb
  have hsame := hb.2
  rw [hreported, held, hmemory, MemoryBackup.dropExcess, if_pos h] at hsame
  simp [MemoryBackup.updateStats, MemoryBackup.save] at hsame

theorem backup_iff (c : FailedCommit ρ) :
    (b.backup false c).WithinLimit ∧ (b.backup false c).Accurate ↔ b.HasRoom c := by
  have hexceeded : (b.memoryBackup.save c).thresholdExceeded = true ↔
      totalBytes (c :: b.held) % 2 ^ 64 > b.memoryBackup.maxSizeBytes ∧ b.held ≠ [] := by
    simp [MemoryBackup.thresholdExceeded, MemoryBackup.save, MemoryBackup.updateStats, quantities,
      totalBytes, held, length_pos_iff]
  have hmod : totalBytes (c :: b.held) % 2 ^ 64 = totalBytes (c :: b.held) ↔
      totalBytes (c :: b.held) < 2 ^ 64 := Nat.mod_eq_iff_lt (by decide)
  unfold HasRoom
  cases hover : (b.memoryBackup.save c).thresholdExceeded with
  | true =>
    refine iff_of_false (fun h => not_accurate_of_exceeded hover h.2) ?_
    obtain ⟨hlimit, hne⟩ := hexceeded.mp hover
    rintro ⟨hlt, hnil | hle⟩
    · exact hne hnil
    · omega
  | false =>
    have hheld : (b.backup false c).held = c :: b.held := by rw [backup_of_not_exceeded hover]; rfl
    have haccurate : (b.backup false c).Accurate ↔ totalBytes (c :: b.held) < 2 ^ 64 := by
      rw [Accurate, hheld, backup_of_not_exceeded hover, ← hmod]
      simp [reportedSize, MemoryBackup.save, MemoryBackup.updateStats, quantities, totalBytes, held]
    have hlimit : (b.backup false c).WithinLimit ↔
        b.held = [] ∨ totalBytes (c :: b.held) ≤ b.memoryBackup.maxSizeBytes := by
      rw [WithinLimit, hheld, backup_of_not_exceeded hover]
      simp [MemoryBackup.save, MemoryBackup.updateStats, or_comm]
    rw [haccurate, hlimit, and_comm]

/-- The memory is within its limit and the reports are right after each commit that cannot be
    written to disk, in any run, exactly if there is room for each of them. -/
theorem memory_backup_within_limit_iff (maxSizeBytes : Nat) (events : List (Event ρ)) :
    (∀ done c, done ++ [.failed false c] <+: events →
      (run maxSizeBytes (done ++ [.failed false c])).WithinLimit ∧
        (run maxSizeBytes (done ++ [.failed false c])).Accurate) ↔
      ∀ done c, done ++ [.failed false c] <+: events → (run maxSizeBytes done).HasRoom c := by
  have hrun (done : List (Event ρ)) (c : FailedCommit ρ) :
      run maxSizeBytes (done ++ [.failed false c]) = (run maxSizeBytes done).backup false c :=
    foldl_append
  simp only [hrun, backup_iff]

def commitOf (bytes : Nat) : FailedCommit Unit := ⟨[()], bytes, 1, 0⟩

/-- A large commit leaves one of two small ones behind, and the report counts both. -/
theorem backup_exceeds_limit :
    let b := run 10 [.failed false (commitOf 5), .failed false (commitOf 5),
      .failed false (commitOf 10)]
    ¬ b.WithinLimit ∧ b.held = [commitOf 10, commitOf 5] ∧ b.reportedSize = some ⟨20, 3⟩ := by
  unfold WithinLimit
  decide

/-! ## Shutdown -/

/-- A commit that `end` attempts, whether it is delivered, and the outcome of its save if it
    is handed to the disk. -/
structure Attempt (ρ : Type) where
  commit : FailedCommit ρ
  delivered : Bool
  save : Option Bool

/-- `end`; `commits` and `saves` say which calls of `force_commit` and `save` succeed. The
    save follows whether or not the commit was delivered. -/
def ended (b : Backup ρ) (commits saves : Nat → Bool) : List (Attempt ρ) :=
  b.held.zipIdx.map fun c => ⟨c.1, commits c.2, some (saves c.2)⟩

/-- The waiting commit, if it was in memory. -/
def cachedFromMemory (b : Backup ρ) : List (FailedCommit ρ) :=
  b.lastCached.toList.filterMap fun c => if c.source = .memory then some c.commit else none

/-- Each commit in memory is attempted once. One that is delivered does not get to disk, and
    one that is not is handed to it. -/
def Persists (b : Backup ρ) (attempts : List (Attempt ρ)) : Prop :=
  (attempts.map Attempt.commit).Perm (b.held ++ b.cachedFromMemory) ∧
    ∀ a ∈ attempts, if a.delivered then a.save ≠ some true else a.save.isSome

theorem commits_ended (b : Backup ρ) (commits saves : Nat → Bool) :
    (b.ended commits saves).map Attempt.commit = b.held := by
  rw [ended, map_map]
  exact zipIdx_map_fst 0 b.held

theorem forall_mem_ended {b : Backup ρ} {commits saves : Nat → Bool} {P : Attempt ρ → Prop} :
    (∀ a ∈ b.ended commits saves, P a) ↔
      ∀ i, ∀ h : i < b.held.length, P ⟨b.held[i], commits i, some (saves i)⟩ := by
  simp only [ended, forall_mem_map, Prod.forall, mk_mem_zipIdx_iff_getElem?]
  constructor
  · exact fun hall i hi => hall _ i (getElem?_eq_getElem hi)
  · intro hall c i hc
    obtain ⟨hi, rfl⟩ := List.getElem?_eq_some_iff.mp hc
    exact hall i hi

/-- Shutdown persists what was not delivered, whatever the disk answers, exactly if nothing
    from memory waits to be retried and no commit in memory is delivered. -/
theorem ended_persists_iff (b : Backup ρ) (commits : Nat → Bool) :
    (∀ saves, b.Persists (b.ended commits saves)) ↔
      b.cachedFromMemory = [] ∧ ∀ i < b.held.length, commits i = false := by
  simp only [Persists, commits_ended, forall_mem_ended]
  constructor
  · intro h
    obtain ⟨hperm, hdisk⟩ := h fun _ => true
    have hlength := hperm.length_eq
    rw [length_append] at hlength
    refine ⟨eq_nil_of_length_eq_zero (by omega), fun i hi => ?_⟩
    cases hcommit : commits i with
    | false => rfl
    | true => simpa [hcommit] using hdisk i hi
  · rintro ⟨hnone, hfailed⟩ saves
    refine ⟨by rw [hnone, append_nil], fun i hi => ?_⟩
    simp [hfailed i hi]

/-- The delivered commit is inserted again after a restart. -/
theorem delivered_commit_saved :
    ¬ (run 10 [.failed false (commitOf 5)]).Persists
      ((run 10 [.failed false (commitOf 5)]).ended (fun _ => true) fun _ => true) := by
  intro h
  exact h.2 ⟨commitOf 5, true, some true⟩ (mem_singleton.mpr rfl) rfl

end Backup

end Clickhouse
