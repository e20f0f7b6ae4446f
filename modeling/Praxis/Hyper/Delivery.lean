/-
What the sessions of an exchange have taken. While an attempt sends, what its session took and what
is still queued are together everything known of the body, and a new attempt starts from there; so
no session ever takes anything but a beginning of the one stream. A connection is fit for reuse when
its session took all of that stream, which an upload given up late no longer shows.
-/
import Praxis.Hyper.Turn

namespace Praxis.Hyper

open List Option

open Praxis.Retry (Bytes BodyCtx)

variable {T : Type}

/-! ## The invariant -/

namespace State

/-- What the session took and what is queued for it make up everything known. -/
def Current (s : State T) (sess : Session T) : Prop := items sess.taken ++ items s.upload.outgoing = s.known

/-- What holds whatever the phase, for a body that is sent in the given way. -/
structure Base (m : Mode) (s : State T) : Prop where
  mode : s.upload.mode = m
  memory : m ≠ .streaming → s.upload.ended = true
  live : s.upload.live = true → s.upload.ended = false
  trailers : s.upload.trailers = s.trailers
  replay : m = .streaming → s.upload.truncated = false → s.upload.replay = s.outputs
  released : m = .streaming → ∀ r ∈ s.released, items r.1.taken <+: s.known

def PhaseOk (s : State T) : Prop :=
  match s.phase with
  | .idle => s.upload.truncated = false
  | .sending sess => s.Current sess
  | .head sess => s.Current sess ∧ ∃ atEnd, sess.inbound = .body atEnd
  -- An upload that was given up has nothing queued and reads nothing more.
  | .relaying sess => items sess.taken <+: s.known ∧
      (s.upload.live = true ∨ s.upload.outgoing ≠ [] → s.Current sess)
  | .over => True

structure Inv (m : Mode) (s : State T) : Prop where
  base : s.Base m
  phase : s.PhaseOk

variable {s t : State T} {sess : Session T} {m : Mode}

theorem Current.taken (h : s.Current sess) : items sess.taken <+: s.known := ⟨_, h⟩

theorem Inv.sent (h : s.Inv m) (hph : s.phase = .sending sess ∨ s.phase = .head sess) : s.Current sess := by
  rcases hph with hph | hph
  · simpa only [PhaseOk, hph] using h.phase
  · exact (by simpa only [PhaseOk, hph] using h.phase : s.Current sess ∧ _).1

theorem Inv.relaying (h : s.Inv m) (hph : s.phase = .relaying sess) :
    items sess.taken <+: s.known ∧ (s.upload.live = true ∨ s.upload.outgoing ≠ [] → s.Current sess) := by
  simpa only [PhaseOk, hph] using h.phase

/-- Only the upload, the records and the sessions given back matter. -/
theorem Base.same (h : s.Base m) (phase : Phase T) (attempts : Nat) (ctx : BodyCtx) :
    ({ s with phase, attempts, ctx } : State T).Base m := ⟨h.mode, h.memory, h.live, h.trailers, h.replay, h.released⟩

theorem Base.streaming (h : s.Base m) (hlive : s.upload.live = true) : m = .streaming := by
  by_contra hmode
  have hended := h.memory hmode
  rw [h.live hlive] at hended
  cases hended

/-- Once the client's body ended, all of the stream is known. -/
theorem Base.known_eq_stream (h : s.Base m) (hended : s.upload.ended = true) : s.known = s.stream := by
  simp only [known, Upload.known, stream, hended, if_true, h.trailers]

theorem Base.known_isPrefix_stream (h : s.Base m) : s.known <+: s.stream := by
  cases hended : s.upload.ended with
  | true => exact h.known_eq_stream hended ▸ prefix_refl _
  | false => simp [known, Upload.known, stream, hended]

/-! ## Ending an attempt -/

variable {out : Outcome} {sess' : Session T} {h2 : Bool} {e : Event T}

@[simp] theorem follow_ctx : (s.follow out).ctx = s.ctx := by cases out <;> rfl

@[simp] theorem follow_upload : (s.follow out).upload = s.upload := by
  cases out <;> rfl

@[simp] theorem follow_released (s : State T) (out : Outcome) : (s.follow out).released = s.released := by
  cases out <;> rfl

/-- After an attempt that was not answered the task starts over or ends. -/
theorem phase_follow (s : State T) (out : Outcome) : (s.follow out).phase = .idle ∨ (s.follow out).phase = .over := by
  cases out with
  | failed | reply => exact .inr rfl
  | retry =>
    by_cases hleft : s.attempts < maxAttempts
    · exact .inl (if_pos hleft)
    · exact .inr (if_neg hleft)

/-- A session that took a beginning of what is known may be given back. -/
theorem Base.release (h : s.Base m) (htaken : items sess.taken <+: s.known) (keepalive : Bool) :
    (s.release sess keepalive).Base m where
  mode := h.mode
  memory := h.memory
  live := h.live
  trailers := h.trailers
  replay := h.replay
  released hmode r hr := by
    rcases mem_append.1 hr with hr | hr
    · exact h.released hmode r hr
    · obtain rfl := mem_singleton.1 hr
      exact htaken

theorem Base.follow (h : s.Base m) {out : Outcome} (hretry : out = .retry → s.upload.truncated = false) :
    (s.follow out).Inv m := by
  cases out with
  | failed | reply => exact ⟨h.same .over s.attempts s.ctx, trivial⟩
  | retry =>
    refine ⟨h.same _ s.attempts s.ctx, ?_⟩
    unfold PhaseOk State.follow
    by_cases hleft : s.attempts < maxAttempts
    · simpa only [hleft, if_true] using hretry rfl
    · simp only [hleft, if_false]

theorem Base.fail (h : s.Base m) (htaken : items sess.taken <+: s.known) {out : Outcome}
    (hretry : out = .retry → s.upload.truncated = false) : (s.fail sess out).Inv m :=
  (h.release htaken false).follow hretry

theorem Base.finish (h : s.Base m) (htaken : items sess.taken <+: s.known) (ended : Ended) :
    (s.finish sess ended).Inv m := ⟨(h.release htaken _).same .over s.attempts s.ctx, trivial⟩

/-! ## One step -/

section

variable {h2 : Bool} {frame : Except Failure (DownstreamFrame T)} {filter : Upload.Filter} {upload : Upload T}

/-- Reading a frame: what was known stays, and what the filters leave is added. -/
theorem Base.accept (h : s.Base m) (hlive : s.upload.live = true) {result : Except UploadEnd Unit}
    (haccept : s.upload.accept filter frame h2 = (result, upload)) :
    ({ s.record h2 frame filter with upload } : State T).Base m ∧
      ({ s.record h2 frame filter with upload } : State T).known =
        s.known ++ (Upload.output filter h2 frame).toList.map .data ++
          (if upload.ended then [.finish (Upload.trailersAfter s.upload.trailers frame)] else []) ∧
      s.known <+: ({ s.record h2 frame filter with upload } : State T).known := by
  have hacc : Upload.Accepted s.upload upload _ _ _ := haccept ▸ Upload.accept_spec (h.live hlive) filter frame h2
  have hmode := h.streaming hlive
  have hstreaming : s.upload.mode = .streaming := h.mode.trans hmode
  have hknown : ({ s.record h2 frame filter with upload } : State T).known =
      s.known ++ (Upload.output filter h2 frame).toList.map .data ++
        if upload.ended then [.finish (Upload.trailersAfter s.upload.trailers frame)] else [] := by
    simp [known, Upload.known, Upload.body, State.record, hacc.mode, hacc.trailers, hstreaming, h.live hlive]
  have hgrown : s.known <+: ({ s.record h2 frame filter with upload } : State T).known :=
    ⟨_, by rw [hknown, append_assoc]⟩
  refine ⟨⟨hacc.mode.trans h.mode, fun hnot => absurd hmode hnot, fun hon => ?_, ?_, fun _ hkept => ?_, fun _ r hr => ?_⟩,
    hknown, hgrown⟩
  · by_contra hended
    exact absurd ((hacc.ended (by simpa using hended)).symm.trans hon) (by decide)
  · rw [hacc.trailers, h.trailers]
    rfl
  · obtain ⟨hbefore, hreplay⟩ := hacc.replay hkept
    rw [hreplay, h.replay hmode hbefore]
    rfl
  · exact (h.released hmode r hr).trans hgrown

theorem Current.accept (hcurrent : s.Current sess) (h : s.Base m) (hlive : s.upload.live = true)
    (haccept : s.upload.accept filter frame h2 = (.ok (), upload)) :
    ({ s.record h2 frame filter with upload } : State T).Current sess := by
  have hacc : Upload.Accepted s.upload upload _ _ _ := haccept ▸ Upload.accept_spec (h.live hlive) filter frame h2
  rw [Current, (h.accept hlive haccept).2.1, ← hcurrent, hacc.queued rfl]
  simp only [append_assoc]

end

theorem Base.moved (h : s.Base m) {upload : Upload T} (hmoved : Moved s.upload sess upload sess') :
    ({ s with upload } : State T).Base m := by
  obtain ⟨outgoing, stalledSince, rfl⟩ := hmoved.upload
  exact ⟨h.mode, h.memory, h.live, h.trailers, h.replay, h.released⟩

theorem Current.moved (h : s.Current sess) {upload : Upload T} (hmoved : Moved s.upload sess upload sess') :
    ({ s with upload } : State T).Current sess' := by
  obtain ⟨outgoing, stalledSince, rfl⟩ := hmoved.upload
  exact hmoved.items.trans h

theorem inv_begin (h : s.Inv m) (hidle : s.phase = .idle) {writeTimeout : Option Nat} {upload : Upload T} {ctx : BodyCtx}
    (hbegin : s.upload.begin s.ctx.reseedRetryBody h2 writeTimeout = .ok (upload, ctx)) :
    ({ s with attempts := s.attempts + 1, upload, ctx, phase := .sending (Session.new h2) } : State T).Inv m := by
  have hb := h.base
  have hkept : s.upload.truncated = false := by simpa only [PhaseOk, hidle] using h.phase
  obtain ⟨⟨buffered, outgoing, hupload⟩, hitems⟩ := Upload.begin_spec (fun hmode => hb.memory (hb.mode ▸ hmode)) hbegin
  -- Only a streamed body depends on what was read so far, and then the copy holds all of it.
  have hknown : items upload.outgoing = upload.known s.outputs := by
    rw [hitems]
    cases hmode : m with
    | streaming => rw [hb.replay hmode hkept]
    | empty | buffered => simp only [Upload.known, Upload.body, hupload, hb.mode, hmode]
  subst hupload
  refine ⟨⟨hb.mode, hb.memory, hb.live, hb.trailers, hb.replay, fun hmode r hr => ?_⟩, hknown⟩
  have hr := hb.released hmode r hr
  simp only [known, Upload.known, Upload.body, hb.mode, hmode] at hr ⊢
  exact hr

theorem inv_carryOn (h : s.Base m) (htaken : items sess.taken <+: s.known)
    (hcurrent : s.upload.live = true ∨ s.upload.outgoing ≠ [] → s.Current sess) (ended : Option Ended) :
    (s.carryOn sess ended).Inv m := by
  cases ended with
  | none => exact ⟨h.same _ s.attempts s.ctx, htaken, hcurrent⟩
  | some ended => exact h.finish htaken ended

/-- An upload given up: nothing is queued, and nothing more is read. -/
theorem inv_abandon (h : s.Base m) (hph : s.phase = .relaying sess) (htaken : items sess.taken <+: s.known) :
    ({ s with upload := s.upload.abandon } : State T).Inv m := by
  refine ⟨⟨h.mode, h.memory, nofun, h.trailers, h.replay, h.released⟩, ?_⟩
  simp only [PhaseOk, hph]
  refine ⟨htaken, fun hopen => ?_⟩
  simp [Upload.abandon] at hopen

theorem inv_step (h : s.Inv m) (hstep : s.step e = some t) : t.Inv m := by
  have hb := h.base
  cases step_turn hstep with
  | refused hidle hagain => exact (hb.same s.phase (s.attempts + 1) s.ctx).follow fun hretry => (hagain hretry).1
  | unsent hidle hagain =>
    exact (hb.same s.phase (s.attempts + 1) s.ctx.reseedRetryBody).fail (items_nil ▸ nil_prefix)
      fun hretry => (hagain hretry).1
  | begun hidle hbegin => exact inv_begin h hidle hbegin
  | flushed hph hmoved => exact ⟨(hb.moved hmoved).same _ s.attempts s.ctx, (h.sent (.inl hph)).moved hmoved⟩
  | answered atEnd hph hmoved =>
    have hcurrent := (h.sent (.inl hph)).moved hmoved
    exact ⟨(hb.moved hmoved).same _ s.attempts s.ctx, hcurrent, atEnd, rfl⟩
  | lost hph hmoved hagain =>
    exact (hb.moved hmoved).fail ((h.sent hph).moved hmoved).taken fun hretry => (hagain hretry).1
  | accepted hph hlive haccept =>
    refine ⟨(hb.accept hlive haccept).1, ?_⟩
    rcases hph with hph | hph
    · simpa only [PhaseOk, State.record, hph] using (h.sent (.inl hph)).accept hb hlive haccept
    · have hcurrent := ((h.relaying hph).2 (.inl hlive)).accept hb hlive haccept
      simpa only [PhaseOk, State.record, hph] using ⟨hcurrent.taken, fun _ => hcurrent⟩
  | rejected hph hlive haccept hagain =>
    obtain ⟨hbase, -, hgrown⟩ := hb.accept hlive haccept
    exact hbase.fail ((h.sent (.inl hph)).taken.trans hgrown) fun hretry => (hagain hretry).1
  | bodyless hph =>
    exact ⟨(hb.release (h.sent (.inr hph)).taken _).same .over s.attempts s.ctx, trivial⟩
  | carried ended hph htaken =>
    have hrelaying := hph.elim (fun hph => ⟨(h.sent (.inr hph)).taken, fun _ => h.sent (.inr hph)⟩) h.relaying
    refine inv_carryOn hb (htaken ▸ hrelaying.1) (fun hopen => ?_) ended
    rw [Current, htaken]
    exact hrelaying.2 hopen
  | pushed hph hqueued hmoved =>
    have hcurrent := ((h.relaying hph).2 (.inr hqueued)).moved hmoved
    exact ⟨(hb.moved hmoved).same _ s.attempts s.ctx, hcurrent.taken, fun _ => hcurrent⟩
  | dropped hph hqueued hmoved hfails =>
    exact inv_abandon ((hb.moved hmoved).same _ s.attempts s.ctx) rfl
      (((h.relaying hph).2 (.inr hqueued)).moved hmoved).taken
  | abandoned hph hlive haccept =>
    obtain ⟨hbase, -, hgrown⟩ := hb.accept hlive haccept
    exact inv_abandon hbase hph ((h.relaying hph).1.trans hgrown)
  | disconnected hph hlive haccept =>
    obtain ⟨hbase, -, hgrown⟩ := hb.accept hlive haccept
    exact hbase.finish ((h.relaying hph).1.trans hgrown) _

theorem inv_start (done : Bool) (preReadTrailers : Option T) (ctx : BodyCtx) :
    (start done preReadTrailers ctx).Inv (Upload.new done preReadTrailers ctx).mode := by
  refine ⟨⟨rfl, fun hmode => ?_, fun hlive => ?_, rfl, fun _ _ => rfl, fun _ _ hr => nomatch hr⟩, rfl⟩
  · simpa [start, Upload.new] using hmode
  · simpa [start, Upload.new] using hlive

theorem inv_run {done : Bool} {preReadTrailers : Option T} {ctx : BodyCtx} {events : List (Event T)}
    (hrun : Lib.run step (start done preReadTrailers ctx) events = some s) :
    s.Inv (Upload.new done preReadTrailers ctx).mode :=
  Lib.run_invariant (G := fun _ _ => True) (fun _ _ _ hinv _ hstep => inv_step hinv hstep)
    (inv_start done preReadTrailers ctx) (Lib.Along.of_forall fun _ _ _ => trivial) hrun

/-! ## Replay -/

/-- A streamed body as the upstream is to get it: every non-empty chunk the filters left, then one end
marker with the client's trailers. -/
def streamed (s : State T) : List (Item T) := s.outputs.map .data ++ [.finish s.trailers]

theorem eq_of_finish_mem {chunks : List Bytes} {trailers found : Option T} {taken : List (Item T)}
    (hbegins : taken <+: chunks.map .data ++ [.finish trailers]) (hfound : .finish found ∈ taken) :
    taken = chunks.map .data ++ [.finish trailers] := by
  rcases prefix_concat_iff.1 hbegins with hall | hdata
  · exact hall
  · simpa using hdata.subset hfound

theorem Inv.taken (h : s.Inv .streaming) : ∀ sess ∈ s.sessions, items sess.taken <+: s.known := by
  intro sess hsession
  rcases mem_append.1 hsession with hreleased | hcurrent
  · obtain ⟨r, hr, rfl⟩ := mem_map.1 hreleased
    exact h.base.released rfl r hr
  · have hph := h.phase
    unfold PhaseOk at hph
    unfold current at hcurrent
    split at hph <;> simp_all only [toList_some, toList_none, mem_singleton, not_mem_nil]
    · exact Current.taken hph
    · exact Current.taken hph.1

/-- Whatever the client sends, the filters leave, the flushes hand over and the attempts fail at: the
session of every attempt has taken a beginning of the one stream, and all of it if it was told that
the body ended. -/
theorem streamed_body_replayed {done : Bool} {preReadTrailers : Option T} {ctx : BodyCtx} {events : List (Event T)}
    (hmode : (Upload.new done preReadTrailers ctx).mode = .streaming)
    (hrun : Lib.run step (start done preReadTrailers ctx) events = some s) :
    ∀ sess ∈ s.sessions, items sess.taken <+: s.streamed ∧
      ∀ trailers, .finish trailers ∈ items sess.taken → items sess.taken = s.streamed := by
  intro sess hsession
  have hinv : s.Inv .streaming := hmode ▸ inv_run hrun
  have hstream : s.stream = s.streamed := by simp only [stream, streamed, Upload.body, hinv.base.mode]
  have htaken : items sess.taken <+: s.streamed :=
    hstream ▸ (hinv.taken sess hsession).trans hinv.base.known_isPrefix_stream
  exact ⟨htaken, fun trailers hfinish => eq_of_finish_mem htaken hfinish⟩

/-- Filters that pass every chunk on. -/
def passing : Upload.Filter := fun body _ => .ok body

/-- The first attempt is lost after one chunk; the second one replays it, and the client ends with trailers. -/
def lostOnce : List (Event Nat) :=
  [.connect true none true false, .client (.ok (.data [1, 2])) passing, .flush 1 (.blocked 0) none false,
    .client (.ok (.data [3])) passing, .lose true, .connect true none true false, .flush 2 (.blocked 0) none false,
    .client (.ok (.trailers 7)) passing, .flush 1 (.blocked 0) none false, .answer false]

theorem lostOnce_replayed : (Upload.new false (none : Option Nat) (BodyCtx.fresh 0 false)).mode = .streaming ∧
    ∃ s, Lib.run step (start false none (BodyCtx.fresh 0 false)) lostOnce = some s ∧
      s.sessions.map (fun sess => items sess.taken) =
        [[.data [1, 2]], [.data [1, 2], .data [3], .finish (some 7)]] ∧
      ∀ sess ∈ s.sessions, items sess.taken <+: s.streamed ∧
        ∀ trailers, .finish trailers ∈ items sess.taken → items sess.taken = s.streamed := by
  have htaken : (Lib.run step (start false none (BodyCtx.fresh 0 false)) lostOnce).map
      (fun s => s.sessions.map fun sess => items sess.taken) =
        some [[.data [1, 2]], [.data [1, 2], .data [3], .finish (some 7)]] := rfl
  obtain ⟨s, hs, htaken⟩ := map_eq_some_iff.1 htaken
  exact ⟨rfl, s, hs, htaken, streamed_body_replayed rfl hs⟩

/-! ## Reuse -/

/-- Whether the relay gives up an upload whose body the client has ended, or ends with this frame: a
flush fails, or a body filter stops the end of the body. -/
def givesUp (s : State T) (e : Event T) : Bool :=
  match s.phase, e with
  | .relaying _, .flush n stop _ _ =>
    s.upload.ended && decide (n < s.upload.outgoing.length) && s.upload.fails n stop
  | .relaying _, .client (.ok .ended) filter => !(filter none true).isOk
  | .relaying sess, .client (.ok (.trailers _)) filter => sess.h2 && !(filter none true).isOk
  | _, _ => false

/-- What holds while no upload is given up late. -/
structure Sound (s : State T) : Prop where
  kept : ∀ sess, s.phase = .relaying sess → s.upload.ended = true → s.Current sess
  inUse : s.phase ≠ .over → ∀ r ∈ s.released, r.2 = false
  reusable : ∀ r ∈ s.released, r.2 = true → items r.1.taken = s.stream ∧ r.1.inbound.ReadToEnd

/-- Nothing was given back for reuse yet, and nothing is now. -/
theorem Sound.of_inUse (hreleased : ∀ r ∈ t.released, r.2 = false)
    (hkept : ∀ sess, t.phase = .relaying sess → t.upload.ended = true → t.Current sess) : t.Sound where
  kept := hkept
  inUse _ := hreleased
  reusable r hr hkeepalive := by rw [hreleased r hr] at hkeepalive; cases hkeepalive

theorem sound_follow (h : ∀ r ∈ s.released, r.2 = false) (out : Outcome) : (s.follow out).Sound := by
  refine .of_inUse (follow_released s out ▸ h) fun sess hph => ?_
  rcases phase_follow s out with hidle | hover
  · cases hidle.symm.trans hph
  · cases hover.symm.trans hph

theorem sound_fail (h : ∀ r ∈ s.released, r.2 = false) : (s.fail sess out).Sound := by
  refine sound_follow (fun r hr => ?_) out
  rcases mem_append.1 hr with hr | hr
  · exact h r hr
  · rw [mem_singleton.1 hr]

section

variable (hb : s.Base m) (h : ∀ r ∈ s.released, r.2 = false)
include hb h

/-- A session goes back for reuse when the upload is settled and the response was read to its end. -/
theorem sound_release {keepalive : Bool} (hkeepalive : keepalive = true →
      sess.inbound.ReadToEnd ∧ s.upload.isSettled = true ∧ (s.upload.ended = true → s.Current sess)) :
    ({ s.release sess keepalive with phase := .over } : State T).Sound where
  kept _ hph := nomatch hph
  inUse hover := absurd rfl hover
  reusable r hr hreuse := by
    rcases List.mem_append.1 hr with hr | hr
    · rw [h r hr] at hreuse
      cases hreuse
    · obtain rfl := List.mem_singleton.1 hr
      obtain ⟨hend, hsettled, hcurrent⟩ := hkeepalive hreuse
      simp only [Upload.isSettled, Bool.and_eq_true, List.isEmpty_iff] at hsettled
      have hall := hcurrent hsettled.1.1
      rw [Current, hsettled.2, items_nil, List.append_nil, hb.known_eq_stream hsettled.1.1] at hall
      exact ⟨hall, hend⟩

theorem sound_finish {ended : Ended} (hcurrent : ended = .finished → s.upload.ended = true → s.Current sess) :
    (s.finish sess ended).Sound :=
  sound_release hb h fun hkeepalive => by
    simp only [Bool.and_eq_true, beq_iff_eq] at hkeepalive
    exact ⟨Session.readToEnd_of_finished hkeepalive.1.2, hkeepalive.2, hcurrent hkeepalive.1.1⟩

theorem sound_carryOn (hcurrent : s.upload.ended = true → s.Current sess) (ended : Option Ended) :
    (s.carryOn sess ended).Sound := by
  cases ended with
  | none => exact .of_inUse h fun sess' hph hended => by cases hph; exact hcurrent hended
  | some ended => exact sound_finish hb h fun _ => hcurrent

end

/-- A refused frame ends the body only if a filter stopped its end. -/
theorem halted_of_ended {u upload : Upload T} {filter : Upload.Filter} {frame : Except Failure (DownstreamFrame T)}
    {refused : UploadEnd} (hopen : u.ended = false) (haccept : u.accept filter frame h2 = (.error refused, upload))
    (hended : upload.ended = true) :
    (frame = .ok .ended ∨ (∃ trailers, frame = .ok (.trailers trailers)) ∧ h2 = true) ∧
      ∃ halt, filter none true = .error halt := by
  have hend : ∀ v : Upload T, v.acceptEnd filter = (.error refused, upload) → ∃ halt, filter none true = .error halt := by
    intro v hv
    unfold Upload.acceptEnd at hv
    cases hfilter : filter none true with
    | error halt => exact ⟨halt, rfl⟩
    | ok last =>
      rw [hfilter] at hv
      cases hlast : last.filter (!·.isEmpty) <;> simp [hlast] at hv
  match frame with
  | .error failure =>
    obtain rfl := (Prod.mk.inj haccept).2
    cases hopen.symm.trans hended
  | .ok (.data chunk) =>
    simp only [Upload.accept] at haccept
    split at haccept
    · obtain rfl := (Prod.mk.inj haccept).2
      cases hopen.symm.trans hended
    · split at haccept <;> cases (Prod.mk.inj haccept).1
  | .ok (.trailers trailers) =>
    cases h2 with
    | true => exact ⟨.inr ⟨⟨trailers, rfl⟩, rfl⟩, hend _ haccept⟩
    | false =>
      obtain rfl := (Prod.mk.inj haccept).2
      cases hopen.symm.trans hended
  | .ok .ended => exact ⟨.inl rfl, hend _ haccept⟩

theorem sound_step (hinv : s.Inv m) (h : s.Sound) (hkeeps : s.givesUp e = false) (hstep : s.step e = some t) : t.Sound := by
  have hb := hinv.base
  have ht := inv_step hinv hstep
  cases step_turn hstep with
  | refused hidle => exact sound_follow (by exact h.inUse (by simp [hidle])) _
  | unsent hidle => exact sound_fail (by exact h.inUse (by simp [hidle]))
  | begun hidle => exact .of_inUse (h.inUse (by simp [hidle])) nofun
  | flushed hph | answered atEnd hph => exact .of_inUse (h.inUse (by simp [hph])) nofun
  | lost hph => exact sound_fail (by exact h.inUse (by rcases hph with hph | hph <;> simp [hph]))
  | accepted hph hlive haccept =>
    refine .of_inUse (h.inUse (by rcases hph with hph | hph <;> simp [hph])) fun sess' hph' hended => ?_
    -- With the end queued the queue is not empty.
    refine (ht.relaying hph').2 (.inr fun hempty => ?_)
    have hqueued := (haccept ▸ Upload.accept_spec (hb.live hlive) _ _ _ : Upload.Accepted s.upload _ _ _ _).queued rfl
    dsimp only at hempty hended
    rw [hempty, hended] at hqueued
    simp at hqueued
  | rejected hph => exact sound_fail (by exact h.inUse (by simp [hph]))
  | bodyless hph =>
    obtain ⟨-, atEnd, hinbound⟩ : _ ∧ ∃ atEnd, _ = Inbound.body atEnd := by simpa only [PhaseOk, hph] using hinv.phase
    refine sound_release hb (h.inUse (by simp [hph])) fun hkeepalive => ?_
    -- The head was just read, so the response is neither failed nor done before its end was seen.
    simp only [Session.responseDone, hinbound, Bool.and_eq_true] at hkeepalive
    exact ⟨by rw [hinbound]; exact hkeepalive.1, hkeepalive.2, fun _ => hinv.sent (.inr hph)⟩
  | carried ended hph htaken =>
    refine sound_carryOn hb (h.inUse (by rcases hph with hph | hph <;> simp [hph])) (fun hended => ?_) ended
    rw [Current, htaken]
    exact hph.elim (fun hph => hinv.sent (.inr hph)) fun hph => h.kept _ hph hended
  | pushed hph hqueued hmoved =>
    refine .of_inUse (h.inUse (by simp [hph])) fun _ hph' hended => ?_
    cases hph'
    obtain ⟨outgoing, stalledSince, rfl⟩ := hmoved.upload
    exact (h.kept _ hph hended).moved hmoved
  | dropped hph hqueued hmoved hfails =>
    refine .of_inUse (h.inUse (by simp [hph])) fun _ _ hended => ?_
    obtain ⟨outgoing, stalledSince, rfl⟩ := hmoved.upload
    have hended : s.upload.ended = true := hended
    simp [givesUp, hph, hended, hfails] at hkeeps
  | abandoned hph hlive haccept =>
    refine .of_inUse (h.inUse (by simp [hph])) fun _ _ hended => ?_
    -- A refusal leaves the body open, or the end of it was stopped.
    obtain ⟨hframe, halt, hhalted⟩ := halted_of_ended (hb.live hlive) haccept hended
    rcases hframe with rfl | ⟨⟨trailers, rfl⟩, hh2⟩
    · simp [givesUp, hph, hhalted, Except.isOk, Except.toBool] at hkeeps
    · simp [givesUp, hph, hhalted, hh2, Except.isOk, Except.toBool] at hkeeps
  | disconnected hph hlive haccept =>
    exact sound_finish (hb.accept hlive haccept).1 (by exact h.inUse (by simp [hph])) nofun

/-- In a run in which the relay never gives up an upload whose body the client has ended, a connection
is given back for reuse only after its session took the whole body with its end marker and the
response was read to its clean end. -/
theorem reused_when_complete {done : Bool} {preReadTrailers : Option T} {ctx : BodyCtx} {events : List (Event T)}
    (hkeeps : Lib.Along step (fun s e => s.givesUp e = false) (start done preReadTrailers ctx) events)
    (hrun : Lib.run step (start done preReadTrailers ctx) events = some s) :
    ∀ r ∈ s.released, r.2 = true → items r.1.taken = s.stream ∧ r.1.inbound.ReadToEnd := by
  have hsound : s.Inv (Upload.new done preReadTrailers ctx).mode ∧ s.Sound :=
    Lib.run_invariant (I := fun s => s.Inv (Upload.new done preReadTrailers ctx).mode ∧ s.Sound)
      (fun _ _ _ hinv hkeep hstep => ⟨inv_step hinv.1 hstep, sound_step hinv.1 hinv.2 hkeep hstep⟩)
      ⟨inv_start done preReadTrailers ctx, .of_inUse nofun nofun⟩ hkeeps hrun
  exact hsound.2.reusable

/-- The client sends three chunks and ends its body; the upstream answers, and then the end of the body
is flushed. -/
def answered (flush : Event Nat) : List (Event Nat) :=
  [.connect false (some 30) true false, .client (.ok (.data [1])) passing, .flush 1 (.blocked 0) none false,
    .client (.ok (.data [2])) passing, .flush 1 (.blocked 0) none false, .client (.ok (.data [3])) passing,
    .flush 1 (.blocked 0) none false, .client (.ok .ended) passing, .flush 0 (.blocked 0) none false, .answer false,
    .respond (.body none true true), flush, .read .ended true true]

/-- The upstream takes everything. -/
def answeredLate : List (Event Nat) := answered (.flush 1 (.blocked 29) none false)

theorem answeredLate_reused :
    Lib.Along step (fun s e => s.givesUp e = false) (start false none (BodyCtx.fresh 0 false)) answeredLate ∧
    ∃ s, Lib.run step (start false none (BodyCtx.fresh 0 false)) answeredLate = some s ∧
      s.released.map Prod.snd = [true] ∧
      ∀ r ∈ s.released, r.2 = true → items r.1.taken = s.stream ∧ r.1.inbound.ReadToEnd := by
  have hkeeps : Lib.Along step (fun s e => s.givesUp e = false) (start false none (BodyCtx.fresh 0 false))
    answeredLate := by decide
  have hreleased : (Lib.run step (start false none (BodyCtx.fresh 0 false)) answeredLate).map
    (fun s => s.released.map Prod.snd) = some [true] := rfl
  obtain ⟨s, hs, hreleased⟩ := map_eq_some_iff.1 hreleased
  exact ⟨hkeeps, s, hs, hreleased, reused_when_complete hkeeps hs⟩

/-- The upstream answers early and stops taking the body: the end of the body waits until the write
timeout, the upload is given up, and the connection goes back for reuse. -/
def answeredEarly : List (Event Nat) := answered (.flush 0 (.blocked 30) none false)

theorem answeredEarly_reused :
    ∃ s, Lib.run step (start false none (BodyCtx.fresh 0 false)) answeredEarly = some s ∧
      s.released.map (fun r => (items r.1.taken, r.2)) = [([.data [1], .data [2], .data [3]], true)] ∧
      s.stream = [.data [1], .data [2], .data [3], .finish none] := by
  have hrun : (Lib.run step (start false none (BodyCtx.fresh 0 false)) answeredEarly).map
      (fun s => (s.released.map (fun r => (items r.1.taken, r.2)), s.stream)) =
    some ([([.data [1], .data [2], .data [3]], true)], [.data [1], .data [2], .data [3], .finish none]) := rfl
  obtain ⟨s, hs, hreleased⟩ := map_eq_some_iff.1 hrun
  exact ⟨s, hs, (Prod.mk.inj hreleased).1, (Prod.mk.inj hreleased).2⟩

end State

end Praxis.Hyper
