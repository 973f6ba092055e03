import SealedStream.Proofs.Session.Dispatch

/-!
# Feeding in chunks

`Feed.chunks` feeds a session piece by piece up to the first error, and `Feed.whole` finalizes it
after the last piece. For a decrypting session the outcome depends on the bytes and not on the cuts,
no plaintext comes before an error, and the session is ready as soon as a whole header is there and
from then on (`Seamless`). The main result `seamless_of_opens` says so of the sessions of the
bundled families and of dispatchers over them.
-/

namespace SealedStream

/-- What feeding a session came to: the bytes that it gave out, the error that stopped it, and the
state reached. -/
structure Feed (κ σ : Type) where
  output : Bytes
  error : Option Error
  state : κ × σ

namespace Feed

variable {κ σ : Type} [Session κ σ]

/-- Feeds the chunks in order, up to the first error. -/
def chunks : List Bytes → κ × σ → Feed κ σ
  | [], s => ⟨[], none, s⟩
  | x :: xs, s =>
    match Session.update x s with
    | .ok out t => { chunks xs t with output := out ++ (chunks xs t).output }
    | .error e t => ⟨[], some e, t⟩

/-- Ends the stream, unless an error did. -/
def finish (r : Feed κ σ) : Feed κ σ :=
  match r.error with
  | some _ => r
  | none =>
    match (Session.finalize : Step (κ × σ) Bytes) r.state with
    | .ok out t => ⟨r.output ++ out, none, t⟩
    | .error e t => ⟨r.output, some e, t⟩

/-- Feeds the chunks and ends the stream. -/
def whole (xs : List Bytes) (s : κ × σ) : Feed κ σ := (chunks xs s).finish

theorem chunks_of_error {x : Bytes} {xs : List Bytes} {s t : κ × σ} {e : Error}
    (h : Session.update x s = .error e t) : chunks (x :: xs) s = ⟨[], some e, t⟩ := by
  simp only [chunks, h]

theorem chunks_of_ok {x : Bytes} {xs : List Bytes} {s t : κ × σ} {out : Bytes}
    (h : Session.update x s = .ok out t) :
    chunks (x :: xs) s = { chunks xs t with output := out ++ (chunks xs t).output } := by
  simp only [chunks, h]

/-- Nothing is fed after an error. -/
theorem chunks_append_of_error {e : Error} : ∀ {xs : List Bytes} {s : κ × σ} (ys : List Bytes),
    (chunks xs s).error = some e → chunks (xs ++ ys) s = chunks xs s
  | [], s, ys, h => by cases h
  | x :: xs, s, ys, h => by
    cases hu : Session.update x s with
    | error e' t => rw [List.cons_append, chunks_of_error hu, chunks_of_error hu]
    | ok out t =>
      rw [chunks_of_ok hu] at h
      rw [List.cons_append, chunks_of_ok hu, chunks_of_ok hu, chunks_append_of_error ys h]

theorem finish_of_error {r : Feed κ σ} {e : Error} (h : r.error = some e) : r.finish = r := by
  simp only [finish, h]

end Feed

/-! ## Sessions that compute their progress -/

namespace Decodes

variable {κ σ : Type} [Session κ σ] {D : Bytes → Progress} {At : Bytes → κ → Prop} {stream : Bytes}

/-- What a run of updates comes to: by induction on the chunks, the session is where the bytes fed
so far put it, and has given out the plaintext of these. -/
theorem chunks_spec (h : Decodes D At stream) : ∀ (xs : List Bytes) {fed : Bytes} {k : κ} (w : σ),
    At fed k → fed ++ xs.flatten <+: stream →
    (∃ e, (Feed.chunks xs (k, w)).error = some e ∧ D (fed ++ xs.flatten) = .failed e ∧
      (Feed.chunks xs (k, w)).output = []) ∨
    (Feed.chunks xs (k, w)).error = none ∧
      At (fed ++ xs.flatten) (Feed.chunks xs (k, w)).state.1 ∧
      (D (fed ++ xs.flatten)).plain = (D fed).plain ++ (Feed.chunks xs (k, w)).output
  | [], fed, k, w, hk, _ => by
    rw [List.flatten_nil, List.append_nil]
    exact .inr ⟨rfl, hk, (List.append_nil _).symm⟩
  | x :: xs, fed, k, w, hk, hw => by
    rw [List.flatten_cons, ← List.append_assoc] at hw ⊢
    have hx : fed ++ x <+: stream := (List.prefix_append _ _).trans hw
    rcases h.update hk hx w with ⟨e, t, hD, hu⟩ | ⟨out, k', w', hu, hk', hplain⟩
    · rw [Feed.chunks_of_error hu]
      exact .inl ⟨e, rfl, h.grows.failed hD _, rfl⟩
    · rw [Feed.chunks_of_ok hu]
      rcases h.chunks_spec xs w' hk' hw with ⟨e, he, hD, hout⟩ | ⟨he, hk'', hplain'⟩
      · refine .inl ⟨e, he, hD, ?_⟩
        have hnil := h.grows.plain_of_failed hD
        rw [hplain, List.append_eq_nil_iff] at hnil
        rw [hnil.2, hout]
        rfl
      · refine .inr ⟨he, hk'', ?_⟩
        rw [hplain', hplain, List.append_assoc]

/-- What a whole stream comes to. -/
theorem whole_spec (h : Decodes D At stream) {k : κ} (hk : At [] k) (xs : List Bytes)
    (hx : xs.flatten = stream) (w : σ) :
    (Feed.whole xs (k, w)).output = (D stream).plain ∧
      (Feed.whole xs (k, w)).error = (D stream).error? := by
  subst hx
  unfold Feed.whole
  rcases h.chunks_spec xs w hk (List.prefix_refl _) with ⟨e, he, hD, hout⟩ | ⟨he, hk', hplain⟩
  · rw [List.nil_append] at hD
    rw [Feed.finish_of_error he, hout, he, hD]
    exact ⟨rfl, rfl⟩
  · rw [List.nil_append] at hk' hplain
    rw [h.grows.nil] at hplain
    simp only [Feed.finish, he]
    cases hD : D xs.flatten with
    | failed e =>
      have := h.going hk'
      rw [hD] at this
      cases this
    | awaiting n =>
      obtain ⟨t, ht⟩ := h.finalize_awaiting hk' hD (Feed.chunks xs (k, w)).state.2
      rw [ht]
      exact ⟨by rw [← hD, hplain]; rfl, rfl⟩
    | ready p =>
      obtain ⟨k'', w', ht, -⟩ := h.finalize_ready hk' hD (Feed.chunks xs (k, w)).state.2
      rw [ht]
      exact ⟨(List.append_nil _).trans (by rw [← hD, hplain]; rfl), rfl⟩

/-- Chunks without an error leave the session as ready as their bytes make it. -/
theorem chunks_going (h : Decodes D At stream) {k : κ} (hk : At [] k) {xs : List Bytes}
    (hx : xs.flatten = stream) {w : σ} (he : (Feed.chunks xs (k, w)).error = none) :
    (D stream).isFailed = false ∧
      Session.isReady (Feed.chunks xs (k, w)).state.1 = (D stream).isReady := by
  subst hx
  rcases h.chunks_spec xs w hk (List.prefix_refl _) with ⟨e, he', -⟩ | ⟨-, hk', -⟩
  · rw [he] at he'
    cases he'
  · exact ⟨h.going hk', h.isReady hk'⟩

/-- Bytes that begin with an opened header make the session ready, and it stays so at the end of the
stream. -/
theorem chunks_ready (h : Decodes D At stream) {k : κ} (hk : At [] k) {xs : List Bytes}
    (hx : xs.flatten = stream) (hr : (D stream).isReady = true) (w : σ) :
    Session.isReady (Feed.chunks xs (k, w)).state.1 = true ∧
      Session.isReady (Feed.whole xs (k, w)).state.1 = true := by
  subst hx
  rcases h.chunks_spec xs w hk (List.prefix_refl _) with ⟨e, -, hD, -⟩ | ⟨he, hk', -⟩
  · rw [List.nil_append] at hD
    rw [hD] at hr
    cases hr
  · rw [List.nil_append] at hk'
    refine ⟨(h.isReady hk').trans hr, ?_⟩
    cases hD : D xs.flatten with
    | failed e => rw [hD] at hr; cases hr
    | awaiting n => rw [hD] at hr; cases hr
    | ready p =>
      obtain ⟨k', w', ht, hk''⟩ := h.finalize_ready hk' hD (Feed.chunks xs (k, w)).state.2
      simp only [Feed.whole, Feed.finish, he]
      rw [ht]
      exact (h.isReady hk'').trans hr

end Decodes

/-! ## Cuts do not matter -/

/-- A session for which only the bytes count, not how they are cut; `front` says of bytes that a
whole header is there. -/
structure Seamless {κ σ : Type} [Session κ σ] (k : κ) (front : Bytes → Prop) : Prop where
  /-- Two cuts of the same bytes come to the same plaintext and to the same error. -/
  cut : ∀ (xs ys : List Bytes) (v w : σ), xs.flatten = ys.flatten →
    (Feed.whole xs (k, v)).output = (Feed.whole ys (k, w)).output ∧
      (Feed.whole xs (k, v)).error = (Feed.whole ys (k, w)).error
  /-- What ends in an error gave no plaintext before. -/
  silent : ∀ (xs : List Bytes) (w : σ) (e : Error), (Feed.whole xs (k, w)).error = some e →
    (Feed.whole xs (k, w)).output = []
  /-- After chunks without an error, the session is ready just when a whole header is there. -/
  ready : ∀ (xs : List Bytes) (w : σ), (Feed.chunks xs (k, w)).error = none →
    (Session.isReady (Feed.chunks xs (k, w)).state.1 = true ↔ front xs.flatten)
  /-- Neither more chunks nor the end of the stream make a ready session unready. -/
  stays : ∀ (xs ys : List Bytes) (w : σ), Session.isReady (Feed.chunks xs (k, w)).state.1 = true →
    Session.isReady (Feed.chunks (xs ++ ys) (k, w)).state.1 = true ∧
      Session.isReady (Feed.whole (xs ++ ys) (k, w)).state.1 = true

theorem Seamless.of_decodes {κ σ : Type} [Session κ σ] {k : κ} {front : Bytes → Prop}
    (h : ∀ _ : σ, ∃ D : Bytes → Progress,
      (∀ stream, ∃ At, Decodes D At stream ∧ At [] k) ∧
        ∀ fed, (D fed).isFailed = false → ((D fed).isReady = true ↔ front fed)) :
    Seamless k front where
  cut := by
    intro xs ys v w hxy
    obtain ⟨D, hD, -⟩ := h v
    obtain ⟨At, hdec, hk⟩ := hD ys.flatten
    obtain ⟨hox, hex⟩ := hdec.whole_spec hk xs hxy v
    obtain ⟨hoy, hey⟩ := hdec.whole_spec hk ys rfl w
    exact ⟨hox.trans hoy.symm, hex.trans hey.symm⟩
  silent := by
    intro xs w e he
    obtain ⟨D, hD, -⟩ := h w
    obtain ⟨At, hdec, hk⟩ := hD xs.flatten
    obtain ⟨hout, herr⟩ := hdec.whole_spec hk xs rfl w
    rw [hout]
    exact Progress.plain_of_error? (herr.symm.trans he)
  ready := by
    intro xs w he
    obtain ⟨D, hD, hfront⟩ := h w
    obtain ⟨At, hdec, hk⟩ := hD xs.flatten
    obtain ⟨hgo, hr⟩ := hdec.chunks_going hk rfl he
    rw [hr]
    exact hfront _ hgo
  stays := by
    intro xs ys w hr
    cases he : (Feed.chunks xs (k, w)).error with
    | some e =>
      have he' := Feed.chunks_append_of_error ys he
      unfold Feed.whole
      rw [he', Feed.finish_of_error he]
      exact ⟨hr, hr⟩
    | none =>
      obtain ⟨D, hD, -⟩ := h w
      obtain ⟨At, hdec, hk⟩ := hD xs.flatten
      obtain ⟨-, hready⟩ := hdec.chunks_going hk rfl he
      obtain ⟨At', hdec', hk'⟩ := hD (xs ++ ys).flatten
      refine hdec'.chunks_ready hk' rfl ?_ w
      rw [List.flatten_append]
      exact hdec.grows.isReady_append (hready.symm.trans hr)

/-- **Chunking never matters to a decrypting session**: neither to one of a bundled family, under any
options and any key wrap that unwraps by a function of its input, nor to a dispatcher over a registry
of such sessions. -/
theorem seamless_of_opens {σ : Type} :
    (∀ (f : BundledFamily) (s : FamilySession σ CounterStream), s.Opens f →
      Seamless s Header.AtFront) ∧
    ∀ (families : UInt32 → BundledFamily) (d : Dispatcher σ (FamilySession σ CounterStream)),
      d.Opens families → Seamless d fun fed => Header.AtFront (fed.drop Dispatcher.idLen) := by
  constructor
  · intro f s hs
    refine Seamless.of_decodes fun w => ⟨s.progress f w, fun stream => ?_, fun fed hf => ?_⟩
    · exact ⟨_, FamilySession.decodes hs w stream, FamilySession.after_nil hs w⟩
    · exact FamilySession.isReady_progress_iff hf
  · intro families d hd
    refine Seamless.of_decodes fun w => ⟨d.familyProgress families w, fun stream => ?_,
      fun fed hf => ?_⟩
    · exact ⟨_, Dispatcher.family_decodes hd w stream, Dispatcher.familyAfter_nil hd w stream⟩
    · exact Dispatcher.isReady_familyProgress_iff hf

/-- A builder over the bundled key wrap, its random sources giving ones. -/
def onesBuilder : CipherBuilder Unit where
  wrap := (AesKeyWrap.ofMaster (.replicate 32 7)).keyWrap ⟨fun n => pure (.replicate n 1)⟩
  random := ⟨fun n => pure (.replicate n 1)⟩

theorem onesBuilder_seamless :
    Seamless (onesBuilder.familySession BundledFamily.sm4.family .decrypt) Header.AtFront ∧
    Seamless (onesBuilder.dispatcher .decrypt (Registry.bundled id id) 1 (some 2)) fun fed =>
      Header.AtFront (fed.drop Dispatcher.idLen) :=
  ⟨seamless_of_opens.1 _ _ (CipherBuilder.opens_familySession (AesKeyWrap.functional_keyWrap _ _) _),
    seamless_of_opens.2 _ _
      (CipherBuilder.opens_dispatcher (AesKeyWrap.functional_keyWrap _ _) _ _)⟩

end SealedStream
