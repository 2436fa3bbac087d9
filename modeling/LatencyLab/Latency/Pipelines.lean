import LatencyLab.Latency.MutexRelay
import LatencyLab.Latency.SpscRelay

/-! Recorded latencies never wrap and decompose, in the SPSC pipelines, whatever their
book, and in the mutex-queue pipeline. -/

namespace LatencyLab

open Transition

/-- **Recorded latencies never wrap and decompose.** While the clock does not go back, the
timestamps of every consumed message are in order, whatever the interleaving of the two
threads, so its samples are the exact differences and the wait is within the latency. -/
theorem latencies_decompose (messages : List MarketMessage) (capacity : ℕ) :
    (∀ {B : Type*} (onMessage : B → MarketMessage → B) (book : B) (events : List PipelineEvent) (s : Pipeline B),
      exec (Pipeline.step onMessage) (Pipeline.make capacity messages book) events = some s →
      NeverDecreases (events.filterMap PipelineEvent.clock?) →
      Recorded messages (ClockLog.ofReads (events.filterMap PipelineEvent.clock?)) s.queueWaitRecorder
        s.pipelineLatencyRecorder s.appliedMessages) ∧
    ∀ (events : List MutexPipelineEvent) (s : MutexPipeline),
      exec MutexPipeline.step (MutexPipeline.make capacity messages) events = some s →
      NeverDecreases (events.filterMap MutexPipelineEvent.clock?) →
      Recorded messages (ClockLog.ofReads (events.filterMap MutexPipelineEvent.clock?)) s.queueWaitRecorder
        s.pipelineLatencyRecorder s.appliedMessages :=
  ⟨fun _ _ _ _ hrun hclock => Pipeline.recorded_of_run hrun hclock,
    fun _ _ hrun hclock => MutexPipeline.recorded_of_run hrun hclock⟩

/-- Two messages through each pipeline. -/
theorem latencies_decompose_twoMessageRun :
    (∃ s, exec (Pipeline.step OrderBook.onMessage) (Pipeline.make 1 addThenModify OrderBook.empty)
        Pipeline.twoMessageRun = some s ∧
      s.queueWaitRecorder = [4, 5] ∧ s.pipelineLatencyRecorder = [8, 10] ∧
      Recorded addThenModify (ClockLog.ofReads (Pipeline.twoMessageRun.filterMap PipelineEvent.clock?))
        s.queueWaitRecorder s.pipelineLatencyRecorder s.appliedMessages) ∧
    ∃ s, exec MutexPipeline.step (MutexPipeline.make 1 addThenModify) MutexPipeline.twoMessageRun = some s ∧
      s.queueWaitRecorder = [4, 5] ∧ s.pipelineLatencyRecorder = [8, 10] ∧
      Recorded addThenModify
        (ClockLog.ofReads (MutexPipeline.twoMessageRun.filterMap MutexPipelineEvent.clock?))
        s.queueWaitRecorder s.pipelineLatencyRecorder s.appliedMessages := by
  constructor
  · have hends : (exec (Pipeline.step OrderBook.onMessage)
        (Pipeline.make 1 addThenModify OrderBook.empty) Pipeline.twoMessageRun).map
          (fun s => (s.queueWaitRecorder, s.pipelineLatencyRecorder)) = some ([4, 5], [8, 10]) := by decide +kernel
    obtain ⟨s, hrun, hsamples⟩ := Option.map_eq_some_iff.mp hends
    obtain ⟨hwaits, hlatencies⟩ := Prod.mk.inj hsamples
    exact ⟨s, hrun, hwaits, hlatencies, (latencies_decompose _ 1).1 _ _ _ s hrun (by decide)⟩
  · have hends : (exec MutexPipeline.step (MutexPipeline.make 1 addThenModify)
        MutexPipeline.twoMessageRun).map (fun s => (s.queueWaitRecorder, s.pipelineLatencyRecorder)) =
          some ([4, 5], [8, 10]) := rfl
    obtain ⟨s, hrun, hsamples⟩ := Option.map_eq_some_iff.mp hends
    obtain ⟨hwaits, hlatencies⟩ := Prod.mk.inj hsamples
    exact ⟨s, hrun, hwaits, hlatencies, (latencies_decompose.{0} _ 1).2 _ s hrun (by decide)⟩

end LatencyLab
