import OrderedStore.Proofs.Record.Decoding
import OrderedStore.Proofs.Store.Audits
import OrderedStore.Proofs.Store.Reachable

/-! # Accounts of reachable stores

The counters and the arena are kept by increments, in every place where records or blocks come and
go. In every store that calls can lead to they are the sums over its blocks.
-/

namespace OrderedStore.Store

/-- The counters of a store agree with a walk over its blocks, and with an audit. -/
structure Accounted (s : Store) : Prop where
  blocks : s.ledger.counters.blocks = s.blockCount
  liveRecords : s.ledger.counters.liveRecords = s.size
  size : s.size = s.liveRecords.length
  dataBytes : s.ledger.counters.dataBytes = s.usedBytes
  /-- Tombstones take bytes too. -/
  usedBytes : s.usedBytes = total (·.image.length) s.blocks
  allocated : s.allocated = total Block.capacity s.blocks
  audited : ∃ totals, s.audit = .ok totals ∧ totals.blocks = s.blockCount
    ∧ totals.liveRecords = s.size ∧ totals.usedBytes = s.usedBytes
    ∧ totals.capacityBytes = s.allocated
    ∧ totals.records = totals.liveRecords + totals.tombstones
    ∧ totals.liveBytes = (Run.encode s.liveRecords).length

theorem WellFormed.accounted {s : Store} (wf : s.WellFormed) : s.Accounted where
  blocks := wf.balanced.published
  liveRecords := wf.balanced.liveRecords
  size := wf.size_eq
  dataBytes := wf.balanced.dataBytes
  usedBytes := total_congr fun b member => by
    rw [(wf.enrolled_of_mem_blocks member).sound.used, Block.image, Run.length_encode]
  allocated := wf.balanced.allocated
  audited := by
    refine ⟨_, wf.audit_eq, rfl, rfl, rfl, rfl, ?_, (Run.length_encode _).symm⟩
    rw [size, ← total_add]
    apply total_congr
    intro b member
    have sound := (wf.enrolled_of_mem_blocks member).sound
    have parts := Run.length_live_add_tombstones b.run
    rw [sound.liveCount, sound.recordCount, sound.deletedCount]
    exact parts.symm

namespace Reachable

variable {o : Options} {s : Store}

/-- Whatever calls led to a store, its accounts are right. -/
theorem accounts (reachable : Reachable o s) : s.Accounted := reachable.wellFormed.accounted

theorem accounts_after_delete : ∃ s, create {} = .ok s
    ∧ (((s.put [1] [2]).2.put [3] []).2.delete [1]).2.Accounted :=
  ⟨_, rfl, accounts (o := {}) (.delete [1] (.put [3] [] (.put [1] [2] (.opened rfl))))⟩

end Reachable

end OrderedStore.Store
