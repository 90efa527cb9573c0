import DEngine.Adaptors.FileApply
import DEngine.Adaptors.RocksDBStateMachine

/-!
# Both stores refine the interpreter

However a sequence of entries is divided into chunks, the file state machine and the
one in RocksDB answer with the results of the serial interpreter, and keep its values
and its last applied identity.
-/

namespace DEngine.Adaptors

open Apply Library

/-- The two refinements, for entries without a time to live. -/
theorem chunks_run_serially (chunks : List (ApplyClock × List ApplyEntry))
    (hascending : (chunks.flatMap Prod.snd).Pairwise fun a b => a.index < b.index)
    (httl : ∀ e ∈ chunks.flatMap Prod.snd, ttlSecs e = none) :
    (∀ sm : FileStateMachine, ∃ sm' writes,
      sm.applyChunks chunks =
        .ok ((Interpreter.run ⟨sm.values, sm.lastApplied⟩ (chunks.flatMap Prod.snd)).1,
          sm', writes) ∧
      (⟨sm'.values, sm'.lastApplied⟩ : Interpreter) =
        (Interpreter.run ⟨sm.values, sm.lastApplied⟩ (chunks.flatMap Prod.snd)).2) ∧
    (∀ sm : RocksDBStateMachine, sm.IsOpen → ∃ sm',
      sm.applyChunks (chunks.map fun p => (p.1.registeredAt, p.2)) =
        .ok ((Interpreter.run ⟨sm.values, sm.lastApplied⟩ (chunks.flatMap Prod.snd)).1, sm') ∧
      (⟨sm'.values, sm'.lastApplied⟩ : Interpreter) =
        (Interpreter.run ⟨sm.values, sm.lastApplied⟩ (chunks.flatMap Prod.snd)).2) := by
  constructor
  · intro sm
    exact FileStateMachine.applyChunks_refines hascending fun e he =>
      registers_of_ttlSecs (httl e he) sm.lease
  · intro sm hop
    have hsa : (chunks.map fun p => (p.1.registeredAt, p.2)).flatMap Prod.snd =
        chunks.flatMap Prod.snd := List.flatMap_map _ _ _
    rw [← hsa] at hascending httl ⊢
    obtain ⟨sm', hrun, hla, -⟩ :=
      RocksDBStateMachine.applyChunks_refines hop hascending fun e he =>
        registers_of_ttlSecs (httl e he) sm.lease
    exact ⟨sm', hrun, hla⟩

/-- Two chunks in which compare-and-swaps see earlier writes of their own chunk. -/
def comparingChunks : List (ApplyClock × List ApplyEntry) :=
  [(.still, [⟨1, 1, .insert [1] [10] none⟩, ⟨2, 1, .compareAndSwap [1] (some [10]) [11]⟩]),
    (.still, [⟨3, 1, .delete [1]⟩, ⟨5, 2, .compareAndSwap [1] none [12]⟩,
      ⟨6, 2, .batch [.insert [2] [20], .delete [1]]⟩])]

theorem comparing_chunks_run_serially :
    (Interpreter.run ⟨∅, ⟨0, 0⟩⟩ (comparingChunks.flatMap Prod.snd)).1 =
      [.success 1, .success 2, .success 3, .success 5, .success 6] ∧
    (∃ sm' writes,
      FileStateMachine.fresh.applyChunks comparingChunks =
        .ok ((Interpreter.run ⟨∅, ⟨0, 0⟩⟩ (comparingChunks.flatMap Prod.snd)).1, sm', writes) ∧
      (⟨sm'.values, sm'.lastApplied⟩ : Interpreter) =
        (Interpreter.run ⟨∅, ⟨0, 0⟩⟩ (comparingChunks.flatMap Prod.snd)).2) ∧
    (∃ sm',
      RocksDBStateMachine.fresh.applyChunks
          (comparingChunks.map fun p => (p.1.registeredAt, p.2)) =
        .ok ((Interpreter.run ⟨∅, ⟨0, 0⟩⟩ (comparingChunks.flatMap Prod.snd)).1, sm') ∧
      (⟨sm'.values, sm'.lastApplied⟩ : Interpreter) =
        (Interpreter.run ⟨∅, ⟨0, 0⟩⟩ (comparingChunks.flatMap Prod.snd)).2) := by
  have hbo := chunks_run_serially comparingChunks (by decide) (by decide)
  exact ⟨by decide +kernel, hbo.1 .fresh, hbo.2 .fresh ⟨rfl, rfl⟩⟩

end DEngine.Adaptors
