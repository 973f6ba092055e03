import SealedStream.Proofs.Stream.Watching

/-!
# Failures on their way up a tower of readers

A read of an adapter fails for one of two reasons: what it stands on has failed, and it passes that on
as it is or, a cipher reader, as the error behind it; or that has not, and the error is its own
(`ReadLayer.Failed`). So a failed read of a tower has one origin, below which nothing has failed, and
from which on every level has failed with the same error (`Watched.Relayed`). A read that gives
something has met no failure at all (`Watched.ensures_read`).
-/

namespace SealedStream

variable {σ κ γ ρ : Type}

/-! ## One adapter -/

namespace ReadLayer

/-- What a read makes of a failure of what the adapter stands on. -/
inductive Passed (z : IoError) : IoError → ReadLayer (Logged Error κ) γ ρ → Prop
  | plain {layer : ReadLayer (Logged Error κ) γ ρ} : (∀ r, layer ≠ .cipher r) → Passed z z layer
  | cipher {r : CipherReader (Logged Error κ) ρ} : r.session.failure = none → r.eof = false →
      r.failed = (Error.ofIo z).kept → Passed z (Error.ofIo z).toIo (.cipher r)

/-- How a read may fail though what the adapter stands on has not. -/
inductive Arises (env : Env σ) : Error → ReadLayer (Logged Error κ) γ ρ → Prop
  | session {r : CipherReader (Logged Error κ) ρ} {e : Error} : r.session.failure = some e →
      r.eof = false → r.failed = e.kept → Arises env e (.cipher r)
  | aborted {layer : ReadLayer (Logged Error κ) γ ρ} {h : AbortHandle} : layer.token = some h →
      h.isAborted env = true → layer.sessionFailure = none → layer.Tidy → Arises env .aborted layer
  /-- The reader gave up. -/
  | idle {r : CipherReader (Logged Error κ) ρ} {e : Error} : e ∈ CipherReader.exhausted →
      r.session.failure = none → r.eof = false → r.failed = none → Arises env e (.cipher r)
  /-- The reader has failed before. -/
  | repeated {r : CipherReader (Logged Error κ) ρ} {e : Error} : r.session.failure = none →
      r.failed = some e → e.isIo = false → Arises env e (.cipher r)
  | removed {i : ρ} : Arises env (.io closedError) (.removed i)

/-- The failure of a read: passed on from below, where `B` says what it comes from, or the adapter's
own, and below all is as `A` says. -/
inductive Failed (A : ρ → Prop) (B : IoError → ρ × Env σ → Prop) :
    IoError → ReadLayer (Logged Error κ) γ ρ × Env σ → Prop
  | passed {l : ReadLayer (Logged Error κ) γ ρ} {env : Env σ} {z x : IoError} :
      B z (l.inner, env) → l.Passed z x → Failed A B x (l, env)
  | own {l : ReadLayer (Logged Error κ) γ ρ} {env : Env σ} {e : Error} :
      A l.inner → l.Arises env e → Failed A B e.toIo (l, env)

/-- Below and in the session nothing has failed. -/
structure Smooth (A : ρ → Prop) (layer : ReadLayer (Logged Error κ) γ ρ) : Prop where
  inner : A layer.inner
  session : layer.sessionFailure = none
  tidy : layer.Tidy

end ReadLayer

section

variable [Source σ ρ] {A : ρ → Prop} {B : IoError → ρ × Env σ → Prop} {fuel : Nat}
  (hread : ∀ n, Ensures (fun u : ρ × Env σ => A u.1) (fun _ u => A u.1) B
    (Source.read fuel n : Transfer σ ρ Bytes))

include hread

theorem AbortableReader.ensures_read (n : Nat) :
    Ensures (fun s : AbortableReader ρ × Env σ => A s.1.inner) (fun _ s => A s.1.inner)
      (fun z s => B z (s.1.inner, s.2) ∨
        z = Error.aborted.toIo ∧ A s.1.inner ∧ s.1.abort.isAborted s.2 = true)
      (Source.read fuel n) := by
  have hcheck : Ensures (fun s : AbortableReader ρ × Env σ => A s.1.inner) (fun _ s => A s.1.inner)
      (fun z s => B z (s.1.inner, s.2) ∨
        z = Error.aborted.toIo ∧ A s.1.inner ∧ s.1.abort.isAborted s.2 = true) checkAbort := by
    refine .get_bind fun s hs => ?_
    simp only [run_adaptExcept, run_check, AbortHandle.check]
    cases ha : s.1.abort.isAborted s.2 with
    | false => exact hs
    | true => exact .inr ⟨rfl, hs, ha⟩
  refine .bind hcheck fun _ => .bind (.zoom fun t ht => ?_) fun _ =>
    .bind hcheck fun _ => .pure fun _ h => h
  have hinner := hread n (t.1.inner, t.2) ht
  cases hrun : (Source.read fuel n : Transfer σ ρ Bytes) (t.1.inner, t.2) with
  | ok bytes u =>
    rw [hrun] at hinner
    exact hinner
  | error z u =>
    rw [hrun] at hinner
    exact .inl hinner

theorem CheckedReader.ensures_read [Accumulator γ] (n : Nat) :
    Ensures (fun s : CheckedReader γ ρ × Env σ => A s.1.inner) (fun _ s => A s.1.inner)
      (fun z s => B z (s.1.inner, s.2)) (Source.read fuel n) :=
  .bind (.zoom fun t ht => hread n (t.1.inner, t.2) ht) fun _ =>
    .bind (J := fun _ s => A s.1.inner) (.modify fun _ h => h) fun _ => .pure fun _ h => h

theorem BufferedReader.ensures_read (n : Nat) :
    Ensures (fun s : BufferedReader ρ × Env σ => A s.1.inner) (fun _ s => A s.1.inner)
      (fun z s => B z (s.1.inner, s.2)) (Source.read fuel n) := by
  have hinner (m : Nat) : Ensures (fun s : BufferedReader ρ × Env σ => A s.1.inner)
      (fun _ s => A s.1.inner) (fun z s => B z (s.1.inner, s.2)) (onInner (Source.read fuel m)) :=
    .zoom fun t ht => hread m (t.1.inner, t.2) ht
  have hrest (buffer : Bytes) : Ensures (fun s : BufferedReader ρ × Env σ => A s.1.inner)
      (fun _ s => A s.1.inner) (fun z s => B z (s.1.inner, s.2)) (do
        setBuffer (buffer.drop n)
        return buffer.take n) :=
    .bind (J := fun _ s => A s.1.inner) (.modify fun _ h => h) fun _ => .pure fun _ h => h
  refine .get_bind fun s hs => ?_
  refine Ensures.ite _ (fun _ => hinner n) (fun _ => .ite _ (fun _ => ?_) fun _ => ?_) s hs
  · exact .bind (hinner s.1.capacity) hrest
  · exact .bind (J := fun _ s => A s.1.inner) (.pure fun _ h => h) hrest

omit [Source σ ρ] hread in
/-- A cipher reader passes on what its source fails with, and the rest is its own. -/
theorem CipherReader.Failed.readLayer {e : Error}
    {s : CipherReader.State σ (Logged Error κ) ρ} (h : CipherReader.Failed A B Error.kept e s) :
    ReadLayer.Failed A B e.toIo ((.cipher s.1 : ReadLayer (Logged Error κ) γ ρ), s.2) := by
  obtain ⟨r, env⟩ := s
  cases h with
  | source hB hs he hf => exact .passed (l := .cipher r) hB (.cipher hs he hf)
  | session hA hs he hf => exact .own (l := .cipher r) hA (.session hs he hf)
  | aborted hA hs ha ht => exact .own (l := .cipher r) hA (.aborted rfl ha hs ht)
  | idle hA hs he heof hf => exact .own (l := .cipher r) hA (.idle he hs heof hf)
  | repeated hA hs hf hio => exact .own (l := .cipher r) hA (.repeated hs hf hio)

/-- **A read that gives something has met no failure**, and one that fails says which it met. -/
theorem ReadLayer.ensures_read [Accumulator γ] [Session κ σ] (n : Nat) :
    Ensures (fun s : ReadLayer (Logged Error κ) γ ρ × Env σ => s.1.Smooth A)
      (fun _ s => s.1.Smooth A) (Failed A B) (Source.read fuel n) := by
  rintro ⟨layer, env⟩ ⟨hA, hsession, htidy⟩
  cases layer with
  | abortable r =>
    refine meets_mapState.mpr ((AbortableReader.ensures_read hread n (r, env) hA).mono
      (fun _ _ h => ⟨h, rfl, trivial⟩) fun z t h => ?_)
    rcases h with hB | ⟨rfl, hA, ha⟩
    · exact .passed (l := .abortable t.1) hB (.plain nofun)
    · exact .own (l := .abortable t.1) hA (.aborted rfl ha rfl trivial)
  | checked r =>
    exact meets_mapState.mpr ((CheckedReader.ensures_read hread n (r, env) hA).mono
      (fun _ _ h => ⟨h, rfl, trivial⟩) fun _ t hB => .passed (l := .checked t.1) hB (.plain nofun))
  | buffered r =>
    exact meets_mapState.mpr ((BufferedReader.ensures_read hread n (r, env) hA).mono
      (fun _ _ h => ⟨h, rfl, trivial⟩) fun _ t hB => .passed (l := .buffered t.1) hB (.plain nofun))
  | cipher r =>
    have h := CipherReader.ensures_readBytes hread n (r, env) ⟨hA, hsession, htidy⟩
    exact meets_mapState.mpr (meets_adaptExcept.mpr
      (h.mono (fun _ _ h => ⟨h.1, h.2.1, h.2.2⟩) fun _ _ h => h.readLayer))
  | removed i => exact .own (l := .removed i) hA .removed

end

/-! ## Failures on their way up -/

/-- An error that comes out of a transfer as it went in: it is no failed transfer that carries another
error. -/
def Error.Outright (e : Error) : Prop := ∀ kind inner, e ≠ .io (.carrying kind inner)

theorem Error.ofIo_toIo_of_outright {e : Error} (h : e.Outright) : ofIo e.toIo = e := by
  cases e with
  | io z =>
    cases z with
    | plain kind text => rfl
    | carrying kind inner => exact absurd rfl (h kind inner)
    | stalled => rfl
  | _ => rfl

namespace Watched

/-- Nothing has failed, and no reader has stored a failed transfer. -/
def Smooth : (n : Nat) → Watched κ γ ρ n → Prop
  | 0, w => Logged.failure w = none
  | n + 1, w => Logged.failure w = none ∧ (Logged.it w).Smooth (Smooth n)

/-- On every level, by induction on the height. -/
theorem Smooth.at {level : Nat} : ∀ {n : Nat} {w : Watched κ γ ρ n}, Smooth n w → level ≤ n →
    failureAt n w level = none ∧ sessionFailureAt n w level = none ∧
      ∀ p, layerAt n w level = some p → p.2.Tidy
  | 0, _, h, _ => ⟨h, rfl, nofun⟩
  | n + 1, ⟨layer, failure⟩, h, hlevel => by
    obtain ⟨hfailure, hlayer⟩ := h
    by_cases hn : level ≤ n
    · rw [failureAt_below hn, sessionFailureAt_below hn, layerAt_below hn]
      exact hlayer.inner.at hn
    · obtain rfl : level = n + 1 := by omega
      rw [failureAt_top, sessionFailureAt_top, layerAt_top]
      refine ⟨hfailure, hlayer.session, ?_⟩
      rintro _ ⟨⟩
      exact hlayer.tidy

theorem smooth_new : ∀ {n : Nat} {s : ReadTower κ γ ρ n}, ReadTower.Tidy n s → Smooth n (new n s)
  | 0, _, _ => rfl
  | n + 1, layer, h => by
    have hinner : Smooth n (new n (ReadLayer.inner layer)) := smooth_new h.2
    refine ⟨rfl, ?_⟩
    show ReadLayer.Smooth _ (ReadLayer.bimap _ _ layer)
    cases layer with
    | cipher r => exact ⟨hinner, rfl, h.1⟩
    | _ => exact ⟨hinner, rfl, trivial⟩

/-- Where an error comes from: the source has failed with it, or an adapter, though what it stands on
has not. -/
inductive Origin (n : Nat) (w : Watched κ γ ρ n × Env σ) : Nat → Error → Prop
  | source {z : IoError} : failureAt n w.1 0 = some z → Origin n w 0 (.ofIo z)
  | adapter {m : Nat} {e : Error} {p : Adapter κ γ ρ} :
      layerAt n w.1 m = some p → p.2.Arises w.2 e → Origin n w m e

/-- The read of a tower has failed with `x`, as `e` came up from level `m`: no level below has failed,
and all from there on have, with the same error. -/
structure Relayed (n m : Nat) (e : Error) (x : IoError) (w : Watched κ γ ρ n × Env σ) : Prop where
  le : m ≤ n
  origin : Origin n w m e
  returned : failureAt n w.1 n = some x
  below : ∀ level, level < m → failureAt n w.1 level = none
  above : ∀ level, m ≤ level → level ≤ n →
    ∃ z, failureAt n w.1 level = some z ∧ (e.Outright → Error.ofIo z = e)
  session : ∀ level e', level ≤ n → sessionFailureAt n w.1 level = some e' → level = m ∧ e' = e
  passed : ∀ level i r, m < level → level ≤ n → layerAt n w.1 level = some ⟨i, .cipher r⟩ →
    e.Outright → r.eof = false ∧ r.failed = e.kept
  tidy : ∀ level p, level ≤ n → layerAt n w.1 level = some p → p.2.Tidy

end Watched

namespace ReadLayer

variable {layer : ReadLayer (Logged Error κ) γ ρ} {z x : IoError} {e : Error} {env : Env σ}

theorem Passed.sessionFailure (h : layer.Passed z x) : layer.sessionFailure = none := by
  cases h with
  | plain hlayer =>
    cases layer with
    | cipher r => exact absurd rfl (hlayer r)
    | _ => rfl
  | cipher hs _ _ => exact hs

theorem Passed.tidy (h : layer.Passed z x) : layer.Tidy := by
  cases h with
  | plain hlayer =>
    cases layer with
    | cipher r => exact absurd rfl (hlayer r)
    | _ => trivial
  | cipher _ _ hf => exact CipherReader.tidy_of_kept hf

theorem Passed.ofIo_eq (h : layer.Passed z x) (hz : Error.ofIo z = e) (he : e.Outright) :
    Error.ofIo x = e := by
  cases h with
  | plain _ => exact hz
  | cipher _ _ _ =>
    rw [hz]
    exact Error.ofIo_toIo_of_outright he

theorem Arises.session_eq (h : layer.Arises env e) {e' : Error}
    (he' : layer.sessionFailure = some e') : e' = e := by
  cases h with
  | session hs _ _ => exact Option.some.inj (he'.symm.trans hs)
  | aborted _ _ hs _ => exact nomatch he'.symm.trans hs
  | idle _ hs _ _ => exact nomatch he'.symm.trans hs
  | repeated hs _ _ => exact nomatch he'.symm.trans hs
  | removed => cases he'

theorem Arises.tidy (h : layer.Arises env e) : layer.Tidy := by
  cases h with
  | session _ _ hf => exact CipherReader.tidy_of_kept hf
  | aborted _ _ _ ht => exact ht
  | idle _ _ _ hf =>
    intro e' he'
    exact nomatch hf.symm.trans he'
  | repeated _ hf hio =>
    intro e' he'
    obtain rfl := Option.some.inj (hf.symm.trans he')
    exact hio
  | removed => trivial

end ReadLayer

namespace Watched

variable {n m : Nat} {e : Error} {z x : IoError} {env : Env σ}
  {layer : ReadLayer (Logged Error κ) γ (Watched κ γ ρ n)}

/-- The error comes out of what was returned. -/
theorem Relayed.ofIo_eq {w : Watched κ γ ρ n × Env σ} (h : Relayed n m e x w) (hout : e.Outright) :
    Error.ofIo x = e := by
  obtain ⟨z, hz, he⟩ := h.above n h.le (Nat.le_refl n)
  obtain rfl : x = z := Option.some.inj (h.returned.symm.trans hz)
  exact he hout

/-- A failure goes up one adapter. -/
theorem Relayed.up (h : Relayed n m e z (layer.inner, env)) (hlayer : layer.Passed z x) :
    Relayed (n + 1) m e x (Logged.mk layer (some x), env) where
  le := Nat.le_succ_of_le h.le
  origin := by
    cases h.origin with
    | source hz => exact .source ((failureAt_below (Nat.zero_le n)).trans hz)
    | adapter hp ha => exact .adapter ((layerAt_below h.le).trans hp) ha
  returned := failureAt_top
  below level hlevel :=
    (failureAt_below (Nat.le_trans (Nat.le_of_lt hlevel) h.le)).trans (h.below level hlevel)
  above level hm hlevel := by
    by_cases hn : level ≤ n
    · obtain ⟨z', hz', he⟩ := h.above level hm hn
      exact ⟨z', (failureAt_below hn).trans hz', he⟩
    · obtain rfl : level = n + 1 := by omega
      exact ⟨x, failureAt_top, fun hout => hlayer.ofIo_eq (h.ofIo_eq hout) hout⟩
  session level e' hlevel he' := by
    by_cases hn : level ≤ n
    · exact h.session level e' hn ((sessionFailureAt_below hn).symm.trans he')
    · obtain rfl : level = n + 1 := by omega
      exact nomatch hlayer.sessionFailure.symm.trans (sessionFailureAt_top.symm.trans he')
  passed level i r hm hlevel hr hout := by
    by_cases hn : level ≤ n
    · exact h.passed level i r hm hn ((layerAt_below hn).symm.trans hr) hout
    · obtain rfl : level = n + 1 := by omega
      cases layerAt_top.symm.trans hr
      cases hlayer with
      | plain hplain => exact absurd rfl (hplain r)
      | cipher _ heof hf => exact ⟨heof, by rw [hf, h.ofIo_eq hout]⟩
  tidy level p hlevel hp := by
    by_cases hn : level ≤ n
    · exact h.tidy level p hn ((layerAt_below hn).symm.trans hp)
    · obtain rfl : level = n + 1 := by omega
      cases layerAt_top.symm.trans hp
      exact hlayer.tidy

/-- A failure begins at an adapter. -/
theorem Relayed.own (h : Smooth n layer.inner) (hlayer : layer.Arises env e) :
    Relayed (n + 1) (n + 1) e e.toIo (Logged.mk layer (some e.toIo), env) where
  le := Nat.le_refl _
  origin := .adapter layerAt_top hlayer
  returned := failureAt_top
  below level hlevel := by
    have hn : level ≤ n := Nat.le_of_lt_succ hlevel
    exact (failureAt_below hn).trans (h.at hn).1
  above level hm hlevel := by
    obtain rfl : level = n + 1 := by omega
    exact ⟨_, failureAt_top, Error.ofIo_toIo_of_outright⟩
  session level e' hlevel he' := by
    by_cases hn : level ≤ n
    · exact nomatch (h.at hn).2.1.symm.trans ((sessionFailureAt_below hn).symm.trans he')
    · obtain rfl : level = n + 1 := by omega
      exact ⟨rfl, hlayer.session_eq (sessionFailureAt_top.symm.trans he')⟩
  passed level _ _ hm hlevel := absurd hlevel (Nat.not_le_of_lt hm)
  tidy level p hlevel hp := by
    by_cases hn : level ≤ n
    · exact (h.at hn).2.2 p ((layerAt_below hn).symm.trans hp)
    · obtain rfl : level = n + 1 := by omega
      cases layerAt_top.symm.trans hp
      exact hlayer.tidy

/-- What the source fails with it fails with as it is. -/
theorem Relayed.source {w : Watched κ γ ρ 0} (h : failureAt 0 w 0 = some x) :
    Relayed 0 0 (Error.ofIo x) x (w, env) where
  le := Nat.le_refl 0
  origin := .source h
  returned := h
  below _ hlevel := absurd hlevel (Nat.not_lt_zero _)
  above _ _ _ := ⟨x, h, fun _ => rfl⟩
  session _ _ _ he' := nomatch he'
  passed _ _ _ hm hlevel := absurd hlevel (Nat.not_le_of_lt hm)
  tidy _ _ _ hp := nomatch hp

/-- **A read of a tower either meets no failure or fails with the one that it met**; by induction on
the height. -/
theorem ensures_read [Accumulator γ] [Session κ σ] [Source σ ρ] (fuel : Nat) : ∀ n k : Nat,
    Ensures (fun u : Watched κ γ ρ n × Env σ => Smooth n u.1) (fun _ u => Smooth n u.1)
      (fun z u => ∃ m e, Relayed n m e z u) (Source.read fuel k)
  | 0, k => by
    refine Logged.ensures_run fun s hs => ?_
    cases (Source.read fuel k : Transfer σ ρ Bytes) (Logged.it s.1, s.2) with
    | ok bytes t => exact hs
    | error z t => exact ⟨0, _, .source rfl⟩
  | n + 1, k => by
    refine Logged.ensures_run fun s hs => ?_
    have hlayer := ReadLayer.ensures_read (ensures_read fuel n) k (Logged.it s.1, s.2) hs.2
    cases hrun : (Source.read fuel k : Transfer σ (ReadLayer (Logged Error κ) γ (Watched κ γ ρ n))
        Bytes) (Logged.it s.1, s.2) with
    | ok bytes t =>
      rw [hrun] at hlayer
      exact ⟨hs.1, hlayer⟩
    | error x t =>
      rw [hrun] at hlayer
      cases hlayer with
      | passed hbelow hpassed =>
        obtain ⟨m, e, hrelayed⟩ := hbelow
        exact ⟨m, e, hrelayed.up hpassed⟩
      | own hsmooth harises => exact ⟨n + 1, _, .own hsmooth harises⟩

end Watched

end SealedStream
