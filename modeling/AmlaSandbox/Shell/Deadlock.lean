import AmlaSandbox.Pipe.Eof
import AmlaSandbox.Pipe.Wakeup
import AmlaSandbox.Shell.Pipeline
import Mathlib.Data.Nat.Init

/-!
# Pipelines that get stuck

The shell closes a pipe when it has awaited the writer, and nothing wakes a writer at a full pipe
but a read. Where no writer waits at a full pipe whose reader has exited, the first command that is
not done waits for room in the pipe behind it, then so does the next one, and the last one has no
pipe behind it: a pipeline in which nothing can run is done.
-/

namespace AmlaSandbox.Pipelines

open Async Library Pipes

namespace Pipeline

variable {p : Pipeline} {i : ℕ}

/-- A poll for a write that would park finds a reader that has not exited, a command exits when the
one before it does not wait for room, and the shell spawns all commands. -/
def ServesWriters (p : Pipeline) : Event → Prop
  | .write i _ =>
    (p.pipes i).isFull = true → (p.pipes i).closed = false → (p.stages (i + 1)).isDone = false
  | .exit (i + 1) _ => p.writerWaits i = false
  | .fail => False
  | _ => True

instance (p : Pipeline) (e : Event) : Decidable (p.ServesWriters e) := by
  unfold ServesWriters
  split <;> infer_instance

lemma writerWaits_iff :
    p.writerWaits i = true ↔
      ∃ parked, p.stages i = .writing parked ∧ ¬ parked.Woken (p.pipes i).woken := by
  unfold writerWaits
  split <;> simp_all

/-! ### Parked tasks -/

/-- The pipe represents a queue of the capacity that pipelines have. -/
def Sized (pipe : PipeInner) : Prop := ∃ q, pipe.Represents q ∧ q.capacity = pipeCapacity

lemma Sized.moves {pipe pipe' : PipeInner} {inp out : List UInt8} (h : Sized pipe)
    (hmoves : pipe.Moves inp out pipe') : Sized pipe' := by
  obtain ⟨q, hq, hcapacity⟩ := h
  obtain ⟨q', hmove, hq'⟩ := hmoves q hq
  exact ⟨q', hq', hmove.capacity_eq.trans hcapacity⟩

/-- A pipe is not empty and full at once. -/
lemma Sized.not_full {pipe : PipeInner} (h : Sized pipe) (hempty : pipe.len = 0) :
    pipe.isFull = false := by
  obtain ⟨q, hq, hcapacity⟩ := h
  rw [PipeInner.isFull, hq.capacity_eq, hcapacity, hempty]
  rfl

/-- All parked tasks are attended, and a writer that waits has a reader. -/
structure Attended (p : Pipeline) : Prop where
  reading : ∀ i parked, p.stages i = .reading parked →
    ∃ j, i = j + 1 ∧ (p.pipes j).ReaderAttended parked
  writing : ∀ i parked, p.stages i = .writing parked →
    i + 1 < p.size ∧ (p.pipes i).WriterAttended parked
  served : ∀ i, p.writerWaits i = true → (p.stages (i + 1)).isDone = false
  sized : ∀ i, Sized (p.pipes i)

lemma afterRead_eq {result : Option Parked} {parked : Parked}
    (h : Stage.afterRead result = .reading parked) : result = some parked := by
  cases result with
  | none => cases h
  | some parked' => cases h; rfl

lemma afterRead_ne {result : Option Parked} {parked : Parked} :
    Stage.afterRead result ≠ .writing parked := by
  cases result <;> nofun

lemma isDone_afterRead {result : Option Parked} : (Stage.afterRead result).isDone = false := by
  cases result <;> rfl

lemma afterWrite_eq {result : Option Parked} {parked : Parked}
    (h : Stage.afterWrite result = .writing parked) : result = some parked := by
  cases result with
  | none => cases h
  | some parked' => cases h; rfl

lemma afterWrite_ne {result : Option Parked} {parked : Parked} :
    Stage.afterWrite result ≠ .reading parked := by
  cases result <;> nofun

lemma isDone_afterWrite {result : Option Parked} : (Stage.afterWrite result).isDone = false := by
  cases result <;> rfl

lemma writerWaits_congr {p' : Pipeline} (hstage : p'.stages i = p.stages i)
    (hpipe : p'.pipes i = p.pipes i) : p'.writerWaits i = p.writerWaits i := by
  simp only [writerWaits, hstage, hpipe]

lemma Attended.congr (h : p.Attended) {p' : Pipeline} (hsize : p'.size = p.size)
    (hpipes : p'.pipes = p.pipes) (hstages : p'.stages = p.stages) : p'.Attended := by
  obtain ⟨size, pipefail, pipes, stages, shell⟩ := p'
  obtain rfl : size = p.size := hsize
  obtain rfl : pipes = p.pipes := hpipes
  obtain rfl : stages = p.stages := hstages
  exact ⟨h.reading, h.writing, h.served, h.sized⟩

/-- A task is set to a stage that is attended, and is done where the one before it does not wait. -/
lemma Attended.setStage (h : p.Attended) {stage : Stage}
    (hreading : ∀ parked, stage = .reading parked →
      ∃ j, i = j + 1 ∧ (p.pipes j).ReaderAttended parked)
    (hwriting : ∀ parked, stage = .writing parked →
      i + 1 < p.size ∧ (p.pipes i).WriterAttended parked ∧ (p.stages (i + 1)).isDone = false)
    (hdone : stage.isDone = true → ∀ j, i = j + 1 → p.writerWaits j = false) :
    (p.setStage i stage).Attended where
  reading k parked hk := by
    by_cases hself : k = i
    · subst hself
      rw [stages_setStage_self] at hk
      exact hreading parked hk
    · rw [stages_setStage_of_ne hself] at hk
      exact h.reading k parked hk
  writing k parked hk := by
    by_cases hself : k = i
    · subst hself
      rw [stages_setStage_self] at hk
      obtain ⟨hlt, hk, _⟩ := hwriting parked hk
      exact ⟨hlt, hk⟩
    · rw [stages_setStage_of_ne hself] at hk
      exact h.writing k parked hk
  served k hk := by
    by_cases hself : k = i
    · subst hself
      obtain ⟨parked, hk, _⟩ := writerWaits_iff.mp hk
      rw [stages_setStage_self] at hk
      rw [stages_setStage_of_ne (Nat.succ_ne_self k)]
      exact (hwriting parked hk).2.2
    · rw [writerWaits_congr (stages_setStage_of_ne hself) rfl] at hk
      by_cases hnext : k + 1 = i
      · subst hnext
        rw [stages_setStage_self, Bool.eq_false_iff]
        intro hstage
        rw [hdone hstage k rfl] at hk
        cases hk
      · rw [stages_setStage_of_ne hnext]
        exact h.served k hk
  sized := h.sized

/-- A pipe changes that attends the tasks that are parked at it. -/
lemma Attended.setPipe (h : p.Attended) {q : PipeInner}
    (hreading : ∀ parked, p.stages (i + 1) = .reading parked → q.ReaderAttended parked)
    (hwriting : ∀ parked, p.stages i = .writing parked → q.WriterAttended parked)
    (hwoken : ∀ parked, p.stages i = .writing parked → parked.Woken (p.pipes i).woken →
      parked.Woken q.woken)
    (hsized : Sized q) : (p.setPipe i q).Attended where
  reading k parked hk := by
    obtain ⟨j, rfl, hj⟩ := h.reading k parked hk
    refine ⟨j, rfl, ?_⟩
    by_cases hself : j = i
    · subst hself
      rw [pipes_setPipe_self]
      exact hreading parked hk
    · rw [pipes_setPipe_of_ne hself]
      exact hj
  writing k parked hk := by
    obtain ⟨hlt, hattended⟩ := h.writing k parked hk
    refine ⟨hlt, ?_⟩
    by_cases hself : k = i
    · subst hself
      rw [pipes_setPipe_self]
      exact hwriting parked hk
    · rw [pipes_setPipe_of_ne hself]
      exact hattended
  served k hk := by
    apply h.served
    by_cases hself : k = i
    · subst hself
      obtain ⟨parked, hstage, hnot⟩ := writerWaits_iff.mp hk
      rw [pipes_setPipe_self] at hnot
      exact writerWaits_iff.mpr ⟨parked, hstage, fun h => hnot (hwoken parked hstage h)⟩
    · have hsame : (p.setPipe i q).writerWaits k = p.writerWaits k :=
        writerWaits_congr rfl (pipes_setPipe_of_ne hself)
      rwa [hsame] at hk
  sized k := by
    by_cases hself : k = i
    · subst hself
      rwa [pipes_setPipe_self]
    · rw [pipes_setPipe_of_ne hself]
      exact h.sized k

/-- A poll starts with the task running. -/
lemma setStage_setPipe_setStage {k : ℕ} {q : PipeInner} {s s' : Stage} :
    ((p.setStage k s).setPipe i q).setStage k s' = (p.setPipe i q).setStage k s' := by
  simp [Pipeline.setStage, Pipeline.setPipe]

lemma Attended.run (h : p.Attended) : (p.setStage i .running).Attended :=
  h.setStage nofun nofun nofun

lemma woken_pollRead {pipe : PipeInner} {parked : Parked} {waker : Waker} {bufLen : ℕ}
    (h : parked.Woken pipe.woken) : parked.Woken (pipe.pollRead waker bufLen).2.woken := by
  by_cases hlen : pipe.len = 0
  · cases hclosed : pipe.closed with
    | true =>
      rw [PipeInner.pollRead_closed hlen hclosed]
      exact h
    | false =>
      rw [PipeInner.pollRead_empty hlen hclosed]
      exact h
  · obtain ⟨bytes, head, due, _, heq⟩ := PipeInner.pollRead_nonempty waker bufLen hlen
    rw [heq]
    simp only [PipeInner.wakeBlockedWriter]
    split_ifs
    · exact h.append _
    · exact h

lemma Attended.pollRead (h : p.Attended) (bufLen : ℕ) : (p.pollRead i bufLen).Attended := by
  unfold Pipeline.pollRead
  dsimp only
  rw [← setStage_setPipe_setStage (s := .running)]
  have hrun : (p.setStage (i + 1) .running).Attended := h.run
  have hpoll := hrun.setPipe (i := i) (q := ((p.pipes i).pollRead (i + 1) bufLen).2)
    (fun parked hk => by simp at hk) (fun parked hk => ((hrun.writing i parked hk).2).pollRead)
    (fun parked hk => woken_pollRead) ((h.sized i).moves PipeInner.moves_pollRead)
  apply hpoll.setStage
  · intro parked hk
    refine ⟨i, rfl, ?_⟩
    rw [pipes_setPipe_self]
    exact PipeInner.readerAttended_pollRead (afterRead_eq hk)
  · intro parked hk
    exact absurd hk afterRead_ne
  · intro hdone
    rw [isDone_afterRead] at hdone
    cases hdone

/-- A write poll parks at a full pipe that is open. -/
lemma full_of_parkedBy {pipe : PipeInner} {waker : Waker} {data : List UInt8} {woken : List Waker}
    {parked : Parked} (h : parkedBy (pipe.pollWrite waker data).1 waker woken = some parked) :
    pipe.isFull = true ∧ pipe.closed = false := by
  cases hclosed : pipe.closed with
  | true =>
    rw [PipeInner.pollWrite_closed hclosed] at h
    cases h
  | false =>
    cases hfull : pipe.isFull with
    | true => exact ⟨rfl, rfl⟩
    | false =>
      obtain ⟨n, buffer, tail, wasFull, readerBlocked, heq⟩ :=
        PipeInner.pollWrite_room waker data hfull hclosed
      rw [heq] at h
      cases h

lemma Attended.pollWrite (h : p.Attended) (data : List UInt8) (hlt : i + 1 < p.size)
    (hserves : p.ServesWriters (.write i data)) : (p.pollWrite i data).Attended := by
  unfold Pipeline.pollWrite
  dsimp only
  rw [← setStage_setPipe_setStage (s := .running)]
  have hrun : (p.setStage i .running).Attended := h.run
  have hpoll := hrun.setPipe (i := i) (q := ((p.pipes i).pollWrite i data).2)
    (fun parked hk => ?_) (fun parked hk => by simp at hk)
    (fun parked hk => by simp at hk) ((h.sized i).moves PipeInner.moves_pollWrite)
  · apply hpoll.setStage
    · intro parked hk
      exact absurd hk afterWrite_ne
    · intro parked hk
      have hparked := afterWrite_eq hk
      obtain ⟨hfull, hopen⟩ := full_of_parkedBy hparked
      refine ⟨hlt, ?_, ?_⟩
      · rw [pipes_setPipe_self]
        exact PipeInner.writerAttended_pollWrite hparked
      · rw [stages_setPipe, stages_setStage_of_ne (Nat.succ_ne_self i)]
        exact hserves hfull hopen
    · intro hdone
      rw [isDone_afterWrite] at hdone
      cases hdone
  · obtain ⟨j, hj, hattended⟩ := hrun.reading (i + 1) parked hk
    obtain rfl : i = j := Nat.succ.inj hj
    exact hattended.pollWrite

/-- A pipe is closed whose writer is done. -/
lemma Attended.closeBehind (h : p.Attended) (hdone : (p.stages i).isDone = true) :
    (p.closeBehind i).Attended := by
  unfold Pipeline.closeBehind
  split_ifs with hlt
  swap
  · exact h
  have hnot : ∀ {parked}, p.stages i ≠ .writing parked := by
    intro parked hk
    rw [hk] at hdone
    cases hdone
  apply h.setPipe
  · intro parked hk
    obtain ⟨j, hj, hattended⟩ := h.reading (i + 1) parked hk
    obtain rfl : i = j := Nat.succ.inj hj
    exact hattended.close
  · exact fun parked hk => absurd hk hnot
  · exact fun parked hk => absurd hk hnot
  · exact (h.sized i).moves (PipeInner.SameBytes.moves ⟨rfl, rfl, rfl, rfl⟩)

/-! ### The shell -/

/-- The commands that the shell has spawned and awaited so far. -/
def Awaited (p : Pipeline) : Prop :=
  match p.shell with
  | .spawning i => ∀ j < i, p.stages j ≠ .unspawned
  | .failed => False
  | .awaiting i _ _ => i < p.size ∧ (∀ j < p.size, p.stages j ≠ .unspawned) ∧
    ∀ j < i, (p.stages j).isDone = true ∧ (p.pipes j).closed = true
  | .finished _ => p.Completed

lemma Awaited.congr (h : p.Awaited) (p' : Pipeline) (hshell : p'.shell = p.shell)
    (hsize : p'.size = p.size)
    (hspawned : ∀ j, p.stages j ≠ .unspawned → p'.stages j ≠ .unspawned)
    (hdone : ∀ j, (p.stages j).isDone = true → (p'.stages j).isDone = true)
    (hclosed : ∀ j, (p.pipes j).closed = true → (p'.pipes j).closed = true) : p'.Awaited := by
  unfold Awaited at h ⊢
  rw [hshell]
  cases hp : p.shell with
  | spawning i =>
    rw [hp] at h
    exact fun j hj => hspawned j (h j hj)
  | failed =>
    rw [hp] at h
    exact h
  | awaiting i firstFailure lastCode =>
    rw [hp] at h
    obtain ⟨hlt, hall, hbefore⟩ := h
    rw [hsize]
    refine ⟨hlt, fun j hj => hspawned j (hall j hj), fun j hj => ?_⟩
    exact ⟨hdone j (hbefore j hj).1, hclosed j (hbefore j hj).2⟩
  | finished code =>
    rw [hp] at h
    intro j hj
    rw [hsize] at hj
    exact hdone j (h j hj)

lemma Awaited.setStage (h : p.Awaited) {stage : Stage} (hold : (p.stages i).isDone = false)
    (hnew : stage ≠ .unspawned) : (p.setStage i stage).Awaited := by
  apply h.congr (p.setStage i stage) rfl rfl
  · intro j hj
    by_cases hself : j = i
    · subst hself
      rwa [stages_setStage_self]
    · rwa [stages_setStage_of_ne hself]
  · intro j hj
    have hself : j ≠ i := by
      rintro rfl
      rw [hold] at hj
      cases hj
    rwa [stages_setStage_of_ne hself]
  · exact fun j hj => hj

lemma Awaited.setPipe (h : p.Awaited) {pipe : PipeInner}
    (hclosed : (p.pipes i).closed = true → pipe.closed = true) : (p.setPipe i pipe).Awaited := by
  apply h.congr (p.setPipe i pipe) rfl rfl (fun _ hj => hj) (fun _ hj => hj)
  intro j hj
  by_cases hself : j = i
  · subst hself
    rw [pipes_setPipe_self]
    exact hclosed hj
  · rwa [pipes_setPipe_of_ne hself]

lemma isDone_of_canRead {stage : Stage} (h : stage.canRead = true) : stage.isDone = false := by
  cases stage <;> first | rfl | cases h

lemma isDone_of_canWrite {stage : Stage} (h : stage.canWrite = true) : stage.isDone = false := by
  cases stage <;> first | rfl | cases h

lemma afterRead_spawned {result : Option Parked} : Stage.afterRead result ≠ .unspawned := by
  cases result <;> nofun

lemma afterWrite_spawned {result : Option Parked} : Stage.afterWrite result ≠ .unspawned := by
  cases result <;> nofun

lemma Awaited.pollRead (h : p.Awaited) (bufLen : ℕ) (hread : (p.stages (i + 1)).canRead = true) :
    (p.pollRead i bufLen).Awaited := by
  unfold Pipeline.pollRead
  dsimp only
  apply Awaited.setStage
  · apply h.setPipe
    intro hclosed
    exact PipeInner.closed_pollRead.trans hclosed
  · rw [stages_setPipe]
    exact isDone_of_canRead hread
  · exact afterRead_spawned

lemma Awaited.pollWrite (h : p.Awaited) (data : List UInt8)
    (hwrite : (p.stages i).canWrite = true) : (p.pollWrite i data).Awaited := by
  unfold Pipeline.pollWrite
  dsimp only
  apply Awaited.setStage
  · apply h.setPipe
    intro hclosed
    rw [PipeInner.pollWrite_closed hclosed]
    exact hclosed
  · rw [stages_setPipe]
    exact isDone_of_canWrite hwrite
  · exact afterWrite_spawned

lemma Awaited.spawn (h : p.Awaited) (hshell : p.shell = .spawning i) : (p.spawn i).Awaited := by
  have hspawned : ∀ j < i + 1, (p.setStage i .running).stages j ≠ .unspawned := by
    intro j hj
    by_cases hself : j = i
    · subst hself
      rw [stages_setStage_self]
      nofun
    · rw [stages_setStage_of_ne hself]
      unfold Awaited at h
      rw [hshell] at h
      exact h j (by omega)
  unfold Awaited Pipeline.spawn
  dsimp only
  split_ifs with hlast
  · refine ⟨?_, ?_, nofun⟩
    · show 0 < p.size
      omega
    · intro j hj
      exact hspawned j (hlast ▸ hj)
  · exact hspawned

/-- The shell goes on to the next handle when the pipe behind the command is closed. -/
lemma Awaited.join (h : p.Awaited) {exit firstFailure : Option ℤ} {lastCode : ℤ}
    (hshell : p.shell = .awaiting i firstFailure lastCode) (hdone : (p.stages i).isDone = true) :
    (p.join i exit firstFailure).Awaited := by
  unfold Awaited at h
  rw [hshell] at h
  obtain ⟨hlt, hspawned, hbefore⟩ := h
  have hall : ∀ j < i + 1, (p.stages j).isDone = true := by
    intro j hj
    rcases Nat.lt_succ_iff_lt_or_eq.mp hj with hj | rfl
    · exact (hbefore j hj).1
    · exact hdone
  unfold Awaited Pipeline.join
  dsimp only
  split_ifs with hlast
  · intro j hj
    rw [size_closeBehind, ← hlast] at hj
    rw [stages_closeBehind]
    exact hall j hj
  · rw [size_closeBehind, stages_closeBehind]
    refine ⟨by omega, hspawned, fun j hj => ⟨hall j hj, ?_⟩⟩
    rw [Pipeline.closeBehind, if_pos (by omega)]
    by_cases hself : j = i
    · subst hself
      rw [pipes_setPipe_self]
      rfl
    · rw [pipes_setPipe_of_ne hself]
      exact (hbefore j (by omega)).2

/-! ### Runs -/

/-- What holds while no writer is left without a reader. -/
structure Inv (p : Pipeline) : Prop where
  attended : p.Attended
  awaited : p.Awaited

lemma inv_new (size : ℕ) (pipefail : Bool) : (new size pipefail).Inv where
  attended :=
    { reading := nofun
      writing := nofun
      served := nofun
      sized := fun _ => ⟨_, PipeInner.represents_new _, rfl⟩ }
  awaited := by
    unfold Awaited new
    dsimp only
    by_cases hsize : size = 0
    · rw [if_pos hsize]
      subst hsize
      exact nofun
    · rw [if_neg hsize]
      exact nofun

lemma Inv.step (h : p.Inv) {e : Event} {p' : Pipeline} (hserves : p.ServesWriters e)
    (hstep : p.step e = some p') : p'.Inv := by
  obtain ⟨hattended, hawaited⟩ := h
  cases e with
  | spawn =>
    simp only [Pipeline.step] at hstep
    split at hstep
    · rename_i i hshell
      obtain rfl := Option.some.inj hstep
      exact ⟨hattended.run.congr rfl rfl rfl, hawaited.spawn hshell⟩
    · cases hstep
  | fail => exact hserves.elim
  | read i bufLen =>
    simp only [Pipeline.step, Option.ite_none_right_eq_some] at hstep
    obtain ⟨⟨_, hread⟩, hstep⟩ := hstep
    obtain rfl := Option.some.inj hstep
    exact ⟨hattended.pollRead bufLen, hawaited.pollRead bufLen hread⟩
  | write i data =>
    simp only [Pipeline.step, Option.ite_none_right_eq_some] at hstep
    obtain ⟨⟨hlt, hwrite⟩, hstep⟩ := hstep
    obtain rfl := Option.some.inj hstep
    exact ⟨hattended.pollWrite data hlt hserves, hawaited.pollWrite data hwrite⟩
  | ask i =>
    simp only [Pipeline.step, Option.ite_none_right_eq_some] at hstep
    obtain ⟨hrunning, hstep⟩ := hstep
    obtain rfl := Option.some.inj hstep
    exact ⟨hattended.setStage nofun nofun nofun, hawaited.setStage (by rw [hrunning]; rfl) nofun⟩
  | reply i =>
    simp only [Pipeline.step, Option.ite_none_right_eq_some] at hstep
    obtain ⟨hwaiting, hstep⟩ := hstep
    obtain rfl := Option.some.inj hstep
    exact ⟨hattended.run, hawaited.setStage (by rw [hwaiting]; rfl) nofun⟩
  | exit i exit =>
    simp only [Pipeline.step, Option.ite_none_right_eq_some] at hstep
    obtain ⟨hrunning, hstep⟩ := hstep
    obtain rfl := Option.some.inj hstep
    refine ⟨hattended.setStage nofun nofun fun _ j hj => ?_,
      hawaited.setStage (by rw [hrunning]; rfl) nofun⟩
    subst hj
    exact hserves
  | join =>
    simp only [Pipeline.step] at hstep
    split at hstep
    · rename_i i firstFailure lastCode hshell
      split at hstep
      · rename_i exit hexit
        have hdone : (p.stages i).isDone = true := by rw [hexit]; rfl
        obtain rfl := Option.some.inj hstep
        exact ⟨(hattended.closeBehind hdone).congr rfl rfl rfl, hawaited.join hshell hdone⟩
      · cases hstep
    · cases hstep

/-- A task that cannot run, does not wait for the host and is not done is parked. -/
lemma parked_of_not_canRun (hrun : p.canRun i = false) (hwaiting : p.stages i ≠ .waiting)
    (hdone : (p.stages i).isDone = false) (hspawned : p.stages i ≠ .unspawned) :
    (∃ parked, p.stages i = .reading parked ∧ ¬ parked.Woken (p.pipes (i - 1)).woken) ∨
      p.writerWaits i = true := by
  rw [writerWaits_iff]
  unfold canRun at hrun
  cases hstage : p.stages i with
  | unspawned => exact absurd hstage hspawned
  | running => rw [hstage] at hrun; cases hrun
  | reading parked =>
    rw [hstage] at hrun
    exact .inl ⟨parked, rfl, by simpa using hrun⟩
  | writing parked =>
    rw [hstage] at hrun
    exact .inr ⟨parked, rfl, by simpa using hrun⟩
  | waiting => exact absurd hstage hwaiting
  | done exit => rw [hstage] at hdone; cases hdone

/-- In a quiet pipeline the commands from the awaited one on wait for each other. -/
lemma Inv.writerWaits (h : p.Inv) (hquiet : p.Quiet) {firstFailure : Option ℤ} {lastCode : ℤ}
    (hshell : p.shell = .awaiting i firstFailure lastCode) (k : ℕ) (hk : i ≤ k)
    (hlt : k < p.size) : p.writerWaits k = true := by
  obtain ⟨hattended, hawaited⟩ := h
  obtain ⟨hnot, hall⟩ := hquiet
  unfold Awaited at hawaited
  rw [hshell] at hawaited
  unfold shellCanRun at hnot
  rw [hshell] at hnot
  obtain ⟨_, hspawned, hbefore⟩ := hawaited
  induction k, hk using Nat.le_induction with
  | base =>
    obtain ⟨parked, hstage, hwoken⟩ | hwrites :=
      parked_of_not_canRun (hall i hlt).1 (hall i hlt).2 hnot (hspawned i hlt)
    · -- the pipe that it reads was closed when the command before it had been awaited
      obtain ⟨j, rfl, hreader⟩ := hattended.reading i parked hstage
      obtain ⟨_, _, hopen⟩ := hreader.woken_or_armed.resolve_left hwoken
      rw [(hbefore j (Nat.lt_succ_self j)).2] at hopen
      cases hopen
    · exact hwrites
  | succ k hk ih =>
    have hwaits := ih (Nat.lt_of_succ_lt hlt)
    obtain ⟨parked, hstage, hwoken⟩ | hwrites :=
      parked_of_not_canRun (hall _ hlt).1 (hall _ hlt).2 (hattended.served k hwaits)
        (hspawned _ hlt)
    · -- the pipe that it reads is full
      obtain ⟨j, hj, hreader⟩ := hattended.reading _ parked hstage
      obtain rfl : k = j := Nat.succ.inj hj
      obtain ⟨_, hempty, _⟩ := hreader.woken_or_armed.resolve_left hwoken
      obtain ⟨parked', hstage', hwoken'⟩ := writerWaits_iff.mp hwaits
      obtain ⟨_, hwriter⟩ := hattended.writing k parked' hstage'
      obtain ⟨_, _, _, hfull, _⟩ := hwriter.woken_or_armed.resolve_left hwoken'
      rw [(hattended.sized k).not_full hempty] at hfull
      cases hfull
    · exact hwrites

lemma Inv.neverStuck (h : p.Inv) : p.NeverStuck := by
  intro hquiet
  have hawaited := h.awaited
  have hnot := hquiet.1
  unfold Awaited at hawaited
  unfold shellCanRun at hnot
  cases hshell : p.shell with
  | spawning i => rw [hshell] at hnot; cases hnot
  | failed => rw [hshell] at hawaited; exact hawaited.elim
  | finished code =>
    rw [hshell] at hawaited
    exact hawaited
  | awaiting i firstFailure lastCode =>
    rw [hshell] at hawaited
    have hlt := hawaited.1
    -- the last command has no pipe to wait at
    have hlast := h.writerWaits hquiet hshell (p.size - 1) (by omega) (by omega)
    obtain ⟨parked, hstage, _⟩ := writerWaits_iff.mp hlast
    have := (h.attended.writing _ parked hstage).1
    omega

/-- A pipeline in which no writer is left without a reader never gets stuck. -/
theorem neverStuck_of_servesWriters (size : ℕ) (pipefail : Bool) (p : Pipeline)
    (h : Reachable ServesWriters size pipefail p) : p.NeverStuck := by
  apply Inv.neverStuck
  refine h.invariant (inv_new size pipefail) ?_
  intro p e p' hp hserves hstep
  exact hp.step hserves hstep

/-- Two commands, where the reader starts first and reads to the end of file. -/
def twoCommands : List Event :=
  [.spawn, .spawn, .read 0 4, .write 0 [1], .exit 0 (some 0), .join, .read 0 4, .read 0 4,
    .exit 1 (some 0), .join]

/-- Both commands complete. -/
theorem neverStuck_twoCommands : ∃ p, run 2 false twoCommands = some p ∧ p.Completed := by
  obtain ⟨p, hp⟩ := Option.isSome_iff_exists.mp
    (show (run 2 false twoCommands).isSome = true by decide +kernel)
  have hreach : Reachable ServesWriters 2 false p :=
    reachable_run (show Meets ServesWriters step (new 2 false) twoCommands by decide +kernel) hp
  have hquiet : (run 2 false twoCommands).all (fun p => decide p.Quiet) = true := by
    decide +kernel
  rw [hp] at hquiet
  exact ⟨p, hp, neverStuck_of_servesWriters 2 false p hreach (of_decide_eq_true hquiet)⟩

/-- The reader exits without reading, and the writer fills the pipe and writes once more. -/
def readerExits : List Event :=
  [.spawn, .spawn, .exit 1 (some 0), .write 0 (List.replicate pipeCapacity 121), .write 0 [121]]

/-- The writer waits for room that nobody makes, and the shell for the writer. -/
theorem stuck_readerExits :
    ¬ ∀ size pipefail p, Reachable anyEvent size pipefail p → p.NeverStuck := by
  intro h
  obtain ⟨p, hp⟩ := Option.isSome_iff_exists.mp
    (show (run 2 false readerExits).isSome = true by decide +kernel)
  have hreach : Reachable anyEvent 2 false p :=
    reachable_run (show Meets anyEvent step (new 2 false) readerExits by decide +kernel) hp
  have hstuck : (run 2 false readerExits).all
      (fun p => decide p.Quiet && !decide p.Completed) = true := by
    decide +kernel
  rw [hp, Option.all_some, Bool.and_eq_true] at hstuck
  have hcompleted := h 2 false p hreach (of_decide_eq_true hstuck.1)
  have hnot := hstuck.2
  rw [decide_eq_true hcompleted] at hnot
  cases hnot

end Pipeline

end AmlaSandbox.Pipelines
