/-
What one turn of the task of a request can do, said once: every step of the machine is one of a few
kinds of turn, with what each tells of the upload and the session. The invariants of the exchange
are case analyses over the kinds.
-/
import Praxis.Hyper.Exchange

namespace Praxis.Hyper

open Praxis.Retry (Bytes BodyCtx)

variable {T : Type}

/-- Whether the event asks for another attempt. -/
def Event.retries : Event T → Bool
  | .refuse retry | .connect _ _ _ retry | .flush _ _ _ retry | .lose retry | .respond (.unusable retry) => retry
  | .respond .retriable => true
  | _ => false

/-! ## Another attempt -/

/-- Another attempt follows only if everything sent was kept and the policy asks for it. -/
def Again (upload : Upload T) (retry : Bool) (res : Outcome) : Prop :=
  res = .retry → upload.truncated = false ∧ retry = true

theorem again_afterFailure (upload : Upload T) (retry : Bool) : Again upload retry (afterFailure upload retry) := by
  unfold afterFailure Again
  cases upload.truncated <;> cases retry <;> simp

theorem again_statusRetry (upload : Upload T) : Again upload true (statusRetry upload) := by
  unfold statusRetry Again
  cases upload.truncated <;> simp

theorem again_exchangeFailed (upload : Upload T) (retry : Bool) (e : UploadEnd) :
    Again upload retry (exchangeFailed upload retry e) := by
  cases e with
  | client failure => exact nofun
  | upstream failure => exact again_afterFailure upload retry
  | halted halt =>
    intro hretry
    rw [exchangeFailed] at hretry
    split at hretry <;> cases hretry

/-! ## The session -/

/-- Items have moved from the queue to the session. -/
structure Moved (u : Upload T) (sess : Session T) (u' : Upload T) (sess' : Session T) : Prop where
  upload : ∃ outgoing stalledSince, u' = { u with outgoing, stalledSince }
  items : items sess'.taken ++ items u'.outgoing = items sess.taken ++ items u.outgoing

theorem Moved.of_taken {u : Upload T} {sess sess' : Session T} (h : sess'.taken = sess.taken) :
    Moved u sess u sess' := ⟨⟨_, _, rfl⟩, by rw [h]⟩

theorem flush_moves {u u' : Upload T} {sess sess' : Session T} {n : Nat} {stop : Upload.Stop}
    {result : Except UploadEnd Flush} (hflush : u.flush sess false n stop = (result, u', sess')) :
    Moved u sess u' sess' := by
  obtain ⟨k, since, hk⟩ := Upload.flush_spec stop n u sess false
  rw [hflush] at hk
  cases hk
  refine ⟨⟨_, _, rfl⟩, ?_⟩
  simp only [items_append, List.append_assoc]
  rw [← items_append, List.take_append_drop]

/-- Reading the response leaves alone what the session took of the request. -/
theorem nextChunk_taken {sess sess' : Session T} {yielded got : BodyRead}
    (h : sess.nextChunk yielded = (got, sess')) : sess'.taken = sess.taken := by
  have hsnd : (sess.nextChunk yielded).2 = sess' := congrArg Prod.snd h
  rw [← hsnd]
  unfold Session.nextChunk
  split
  · cases yielded <;> rfl
  · rfl
  · rfl
  · rfl

namespace State

/-! ## Turns -/

/-- The kinds of turn. -/
inductive Turn (s : State T) : Event T → State T → Prop
  /-- There is no session. -/
  | refused (hidle : s.phase = .idle) (hagain : Again s.upload e.retries res) :
    Turn s e ({ s with attempts := s.attempts + 1 }.follow res)
  /-- The request does not go out on the session. -/
  | unsent (hidle : s.phase = .idle) (hagain : Again s.upload e.retries res) :
    Turn s e ({ s with attempts := s.attempts + 1, ctx := s.ctx.reseedRetryBody }.fail (Session.new h2) res)
  | begun (hidle : s.phase = .idle) (hbegin : s.upload.begin s.ctx.reseedRetryBody h2 timeout = .ok (u, c)) :
    Turn s e { s with attempts := s.attempts + 1, upload := u, ctx := c, phase := .sending (Session.new h2) }
  | flushed (hph : s.phase = .sending sess) (hmoved : Moved s.upload sess u sess') :
    Turn s e { s with upload := u, phase := .sending sess' }
  /-- The head arrives, possibly before a flush that fails. -/
  | answered (atEnd : Bool) (hph : s.phase = .sending sess) (hmoved : Moved s.upload sess u sess') :
    Turn s e { s with upload := u, phase := .head (sess'.answer atEnd) }
  /-- The attempt ends without an answer that is relayed. -/
  | lost (hph : s.phase = .sending sess ∨ s.phase = .head sess)
    (hmoved : Moved s.upload sess u sess') (hagain : Again u e.retries res) :
    Turn s e ({ s with upload := u }.fail sess' res)
  | accepted (hph : s.phase = .sending sess ∨ s.phase = .relaying sess) (hlive : s.upload.live = true)
    (haccept : s.upload.accept filter frame sess.h2 = (.ok (), u)) :
    Turn s (.client frame filter) { s.record sess.h2 frame filter with upload := u }
  | rejected (hph : s.phase = .sending sess) (hlive : s.upload.live = true)
    (haccept : s.upload.accept filter frame sess.h2 = (.error refused, u)) (hagain : Again u false res) :
    Turn s (.client frame filter) ({ s.record sess.h2 frame filter with upload := u }.fail sess res)
  | bodyless (hph : s.phase = .head sess) :
    Turn s e { s.release sess (sess.responseDone && s.upload.isSettled) with phase := .over }
  /-- The response is read and relayed, to its end or not. -/
  | carried (ended : Option Ended) (hph : s.phase = .head sess ∨ s.phase = .relaying sess)
    (htaken : sess'.taken = sess.taken) : Turn s e (s.carryOn sess' ended)
  | pushed (hph : s.phase = .relaying sess) (hqueued : s.upload.outgoing ≠ [])
    (hmoved : Moved s.upload sess u sess') : Turn s e { s with upload := u, phase := .relaying sess' }
  /-- A flush fails while the response is relayed. -/
  | dropped (hph : s.phase = .relaying sess) (hqueued : s.upload.outgoing ≠ [])
    (hmoved : Moved s.upload sess u sess')
    (hfails : n < s.upload.outgoing.length ∧ s.upload.fails n stop = true) :
    Turn s (.flush n stop answered retry) { s with upload := u.abandon, phase := .relaying sess' }
  /-- A frame is refused while the response is relayed. -/
  | abandoned (hph : s.phase = .relaying sess) (hlive : s.upload.live = true)
    (haccept : s.upload.accept filter frame sess.h2 = (.error refused, u)) :
    Turn s (.client frame filter) { s.record sess.h2 frame filter with upload := u.abandon }
  | disconnected (hph : s.phase = .relaying sess) (hlive : s.upload.live = true)
    (haccept : s.upload.accept filter frame sess.h2 = (.error refused, u)) :
    Turn s (.client frame filter) ({ s.record sess.h2 frame filter with upload := u }.finish sess .downstream)

variable {s t : State T} {sess : Session T} {e : Event T}

theorem turn_of_stepIdle (hidle : s.phase = .idle) (hstep : s.stepIdle e = some t) : Turn s e t := by
  cases e with
  | noPeer =>
    cases hstep
    exact .refused hidle nofun
  | refuse retry =>
    cases hstep
    exact .refused hidle (again_afterFailure s.upload retry)
  | connect h2 writeTimeout sent retry =>
    simp only [stepIdle] at hstep
    split at hstep
    · split at hstep
      · next hbegin =>
        cases hstep
        exact .begun hidle hbegin
      · cases hstep
        exact .unsent hidle (again_exchangeFailed s.upload retry _)
    · cases hstep
      exact .unsent hidle (again_afterFailure s.upload retry)
  | _ => cases hstep

theorem turn_of_stepSending (hph : s.phase = .sending sess) (hstep : s.stepSending sess e = some t) :
    Turn s e t := by
  cases e with
  | flush n stop answered retry =>
    simp only [stepSending] at hstep
    split at hstep
    · next hflush =>
      cases hstep
      exact .flushed hph (flush_moves hflush)
    · next hflush =>
      cases answered with
      | some atEnd =>
        cases hstep
        exact .answered atEnd hph (flush_moves hflush)
      | none =>
        cases hstep
        exact .lost (.inl hph) (flush_moves hflush) (again_exchangeFailed _ retry _)
  | client frame filter =>
    simp only [stepSending] at hstep
    split at hstep
    · next hguard =>
      have hlive := (Bool.and_eq_true_iff.1 hguard).1
      split at hstep
      · next haccept =>
        cases hstep
        exact .accepted (.inl hph) hlive haccept
      · next haccept =>
        cases hstep
        exact .rejected hph hlive haccept (again_exchangeFailed _ false _)
    · cases hstep
  | answer atEnd =>
    cases hstep
    exact .answered atEnd hph (.of_taken rfl)
  | lose retry =>
    cases hstep
    exact .lost (.inl hph) (.of_taken rfl) (again_afterFailure s.upload retry)
  | _ => cases hstep

theorem turn_of_stepHead (hph : s.phase = .head sess) (hstep : s.stepHead sess e = some t) : Turn s e t := by
  cases e with
  | respond verdict =>
    match verdict with
    | .unusable retry =>
      cases hstep
      exact .lost (.inr hph) (.of_taken rfl) (again_afterFailure s.upload retry)
    | .retriable =>
      cases hstep
      exact .lost (.inr hph) (.of_taken rfl) (again_statusRetry s.upload)
    | .stopped =>
      cases hstep
      exact .lost (.inr hph) (.of_taken rfl) nofun
    | .bodyless =>
      cases hstep
      exact .bodyless hph
    | .body none _ _ =>
      cases hstep
      exact .carried none (.inl hph) rfl
    | .body (some yielded) filterOk clientTakes =>
      simp only [stepHead] at hstep
      split at hstep
      · next hread =>
        have htaken := nextChunk_taken hread
        split at hstep
        · cases hstep
          exact .lost (.inr hph) (.of_taken htaken) nofun
        · split at hstep
          · cases hstep
            exact .carried (some _) (.inl hph) htaken
          · cases hstep
            exact .carried _ (.inl hph) htaken
      · next hread =>
        cases hstep
        exact .carried (some _) (.inl hph) (nextChunk_taken hread)
      · next hread =>
        cases hstep
        exact .lost (.inr hph) (.of_taken (nextChunk_taken hread)) nofun
  | _ => cases hstep

theorem turn_of_stepRelaying (hph : s.phase = .relaying sess) (hstep : s.stepRelaying sess e = some t) :
    Turn s e t := by
  cases e with
  | flush n stop answered retry =>
    simp only [stepRelaying] at hstep
    split at hstep
    · next hqueued =>
      have hqueued : s.upload.outgoing ≠ [] := by simpa [Upload.hasOutgoing] using hqueued
      split at hstep
      · next hflush =>
        cases hstep
        exact .pushed hph hqueued (flush_moves hflush)
      · next failed _ _ hflush =>
        cases hstep
        exact .dropped hph hqueued (flush_moves hflush)
          ((Upload.flush_error_iff stop n s.upload sess false).1 ⟨failed, by rw [hflush]⟩)
    · cases hstep
  | client frame filter =>
    simp only [stepRelaying] at hstep
    split at hstep
    · next hguard =>
      have hlive := (Bool.and_eq_true_iff.1 hguard).1
      split at hstep
      · next haccept =>
        cases hstep
        exact .accepted (.inr hph) hlive haccept
      · next haccept =>
        split at hstep
        · split at hstep
          · cases hstep
            exact .disconnected hph hlive haccept
          · cases hstep
            exact .abandoned hph hlive haccept
        · cases hstep
          exact .abandoned hph hlive haccept
    · cases hstep
  | read yielded filterOk clientTakes =>
    simp only [stepRelaying] at hstep
    split at hstep
    · next hread =>
      split at hstep
      · cases hstep
        exact .carried (some _) (.inr hph) (nextChunk_taken hread)
      · cases hstep
        exact .carried _ (.inr hph) (nextChunk_taken hread)
    all_goals
      rename_i hread
      cases hstep
      exact .carried (some _) (.inr hph) (nextChunk_taken hread)
  | gone =>
    cases hstep
    exact .carried (some _) (.inr hph) rfl
  | _ => cases hstep

theorem step_turn (hstep : s.step e = some t) : Turn s e t := by
  unfold step at hstep
  split at hstep
  · next hph => exact turn_of_stepIdle hph hstep
  · next hph => exact turn_of_stepSending hph hstep
  · next hph => exact turn_of_stepHead hph hstep
  · next hph => exact turn_of_stepRelaying hph hstep
  · cases hstep

end State

end Praxis.Hyper
