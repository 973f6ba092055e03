import SealedStream.Proofs.Session.Calls
import SealedStream.Proofs.Session.Sealing
import SealedStream.Scripted.World

/-!
# Headers across failures

An encrypting session makes its content cipher and seals the header for it in one step, and gives
the header out with the result of the call that made this step (`Session.Begins`). If that call
fails behind the step, because the content cipher does not take its bytes, the header is lost: the
session is ready, and the calls after it give out ciphertext alone (`Session.headLost`). Whatever
else fails, nothing or the header comes first, and what follows it is the ciphertext of the key
material that was sealed in it (`emitted_encrypting`).
-/

namespace SealedStream

variable {σ κ γ : Type}

namespace Session

/-- An encrypting session, at its beginning in the state `k₀`: it makes a content cipher and the
head of the stream by `sealing`, or stays as it was, and is `running` the cipher from then on. -/
structure Begins [Session κ σ] [ContentCipher σ γ] (k₀ : κ) (running : γ → κ)
    (sealing : Step σ (γ × Bytes)) : Prop where
  fresh : isReady k₀ = false
  ready : ∀ c, isReady (running c) = true
  start : ∀ w, Session.start (k₀, w) = match sealing w with
    | .ok p w' => .ok p.2 (running p.1, w')
    | .error e w' => .error e (k₀, w')
  /-- The head comes with what the first bytes come to. -/
  update : ∀ (input : Bytes) (w : σ), Session.update input (k₀, w) =
    match sealing w with
    | .ok p w' =>
      match Session.update input (running p.1, w') with
      | .ok out t => .ok (p.2 ++ out) t
      | .error e t => .error e t
    | .error e w' => .error e (k₀, w')
  finalize : ∀ w : σ, Session.finalize (k₀, w) = .ok [] (k₀, w)
  run : ∀ (call : Call) (c : γ × σ),
    call.run (running c.1, c.2) = mapState (fun c => (running c.1, c.2)) (call.through c)

/-- Whether the call that makes the session ready fails, so that the head of the stream is lost. -/
def headLost [Session κ σ] : List Call → κ × σ → Bool
  | [], _ => false
  | call :: calls, s =>
    if isReady (reached (call.run s)).1 then failed (call.run s)
    else headLost calls (reached (call.run s))

namespace Begins

variable [Session κ σ] [ContentCipher σ γ] {k₀ : κ} {running : γ → κ}
  {sealing : Step σ (γ × Bytes)}

/-- A call at the beginning gives nothing and leaves the session there, or else the content cipher
is made before it, and the head is given if the call does not fail. -/
theorem run_fresh (h : Begins k₀ running sealing) (call : Call) (w : σ) :
    (given (call.run (k₀, w)) = [] ∧ ∃ w', reached (call.run (k₀, w)) = (k₀, w')) ∨
    ∃ c head w', sealing w = .ok (c, head) w' ∧
      given (call.run (k₀, w)) =
        (if failed (call.run (k₀, w)) then [] else head) ++ given (call.through (c, w')) ∧
      failed (call.run (k₀, w)) = failed (call.through (c, w')) ∧
      reached (call.run (k₀, w)) =
        (fun c : γ × σ => (running c.1, c.2)) (reached (call.through (c, w'))) := by
  cases hs : sealing w with
  | error e w' =>
    cases call with
    | start =>
      rw [Call.run, h.start, hs]
      exact .inl ⟨rfl, w', rfl⟩
    | update input =>
      rw [Call.run, h.update, hs]
      exact .inl ⟨rfl, w', rfl⟩
    | finalize =>
      rw [Call.run, h.finalize]
      exact .inl ⟨rfl, w, rfl⟩
  | ok p w' =>
    obtain ⟨c, head⟩ := p
    cases call with
    | start =>
      refine .inr ⟨c, head, w', rfl, ?_⟩
      rw [Call.run, h.start, hs]
      exact ⟨(List.append_nil head).symm, rfl, rfl⟩
    | update input =>
      have hrun := h.run (.update input) (c, w')
      simp only [Call.run, Call.through] at hrun
      refine .inr ⟨c, head, w', rfl, ?_⟩
      simp only [Call.run, h.update, hs, hrun, Call.through]
      cases ContentCipher.update input (c, w') with
      | ok out t => exact ⟨rfl, rfl, rfl⟩
      | error e t => exact ⟨rfl, rfl, rfl⟩
    | finalize =>
      rw [Call.run, h.finalize]
      exact .inl ⟨rfl, w, rfl⟩

/-- **What an encrypting session gives out**, by induction on the calls up to the one that makes the
content cipher: nothing, or all that the cipher gives from that call on, behind the head unless this
is lost. -/
theorem emitted_eq (h : Begins k₀ running sealing) (calls : List Call) (w : σ) :
    emitted Call.run calls (k₀, w) = [] ∨
    ∃ (c : γ) (head : Bytes) (v v' : σ) (rest : List Call), sealing v = .ok (c, head) v' ∧
      emitted Call.run calls (k₀, w) =
        (if headLost calls (k₀, w) then [] else head) ++ emitted Call.through rest (c, v') := by
  induction calls generalizing w with
  | nil => exact .inl rfl
  | cons call calls ih =>
    rw [emitted, headLost]
    rcases h.run_fresh call w with ⟨hgiven, w', hreached⟩ | ⟨c, head, v', hs, hgiven, -, hreached⟩
    · -- the session is still at its beginning
      rw [hgiven, hreached, if_neg (by rw [h.fresh]; decide), List.nil_append]
      exact ih w'
    · -- from here on the session is the cipher
      refine .inr ⟨c, head, w, v', call :: calls, hs, ?_⟩
      rw [hgiven, hreached, emitted_map h.run, if_pos (h.ready _), emitted, List.append_assoc]

end Begins

end Session

/-! ## Sessions of one family -/

namespace FamilySession

/-- How a session makes its content cipher and the head of the stream: `id`, then the header that is
sealed from the cipher's key material. -/
def sealing (s : FamilySession σ γ) (id : Bytes) : Step σ (γ × Bytes) := do
  let (c, h) ← sealNew s
  return (c, id ++ h.encode)

theorem sealing_eq_ok {s : FamilySession σ γ} {id head : Bytes} {c : γ} {w w' : σ}
    (hs : s.sealing id w = .ok (c, head) w') :
    ∃ h, head = id ++ h.encode ∧ sealNew s w = .ok (c, h) w' := by
  obtain ⟨p, w₁, hseal, hs⟩ := exists_of_bind_eq_ok hs
  cases hs
  exact ⟨p.2, rfl, hseal⟩

variable [ContentCipher σ γ] {s : FamilySession σ γ}

theorem finalize_fresh (hm : s.mode = .encrypt) (hp : s.phase = .awaiting []) (w : σ) :
    finalize (s, w) = .ok [] (s, w) := by
  simp only [finalize, run_bind, run_get, hm, hp, run_pure]

/-- An encrypting session of any family seals a header and runs the cipher that it is sealed for. -/
theorem begins (hm : s.mode = .encrypt) (hp : s.phase = .awaiting []) :
    Session.Begins s (fun c => { s with phase := .ready c }) (s.sealing []) where
  fresh := by simp only [Session.isReady, isReady, hp]
  ready _ := rfl
  start := by
    intro w
    refine (start_encrypt hm hp w).trans ?_
    simp only [sealing, run_bind]
    cases sealNew s w <;> rfl
  update := by
    intro input w
    simp only [Session.update, update, run_bind, start_encrypt hm hp, sealing]
    cases sealNew s w with
    | error e w' => rfl
    | ok p w' =>
      simp only [run_get, run_bind, run_pure, List.nil_append,
        start_ready (s := { s with phase := .ready p.1 }) rfl]
      cases onCipher (ContentCipher.update input) p.1 ({ s with phase := .ready p.1 }, w') <;> rfl
  finalize w := finalize_fresh hm hp w
  run := by
    rintro call ⟨c, w⟩
    cases call with
    | start => exact start_ready (s := { s with phase := .ready c }) rfl w
    | update input =>
      refine (update_ready (s := { s with phase := .ready c }) rfl).trans ?_
      simp only [Session.Call.through]
      cases ContentCipher.update input (c, w) <;> rfl
    | finalize =>
      refine (finalize_ready (s := { s with phase := .ready c }) rfl).trans ?_
      simp only [Session.Call.through]
      cases (ContentCipher.finalize : Step (γ × σ) Bytes) (c, w) <;> rfl

/-- The bytes are nothing, or all that one content cipher gave, behind `id` and the header sealed
from the cipher's own key material, with the settings of `s`; if `lost`, without these. -/
def Gives (s : FamilySession σ γ) (id : Bytes) (lost : Bool) (out : Bytes) : Prop :=
  out = [] ∨ ∃ (m : KeyMaterial) (c : γ) (h : Header) (calls : List Session.Call) (w w₁ w₂ w₃ : σ),
    KeyMaterial.generate s.family s.random s.options.rejectZero w = .ok m w₁ ∧
    s.family.newCipher m.key m.iv .encrypt w₁ = .ok c w₂ ∧
    m.sealHeader s.wrap s.options.version w₂ = .ok h w₃ ∧
    out = (if lost then [] else id ++ h.encode) ++
      Session.emitted Session.Call.through calls (c, w₃)

/-- What begins as a session of one family does gives what such a session does. -/
theorem gives_of_begins [Session κ σ] {k₀ : κ} {running : γ → κ} {id : Bytes}
    (h : Session.Begins k₀ running (s.sealing id)) (calls : List Session.Call) (w : σ) :
    s.Gives id (Session.headLost calls (k₀, w))
      (Session.emitted Session.Call.run calls (k₀, w)) := by
  rcases h.emitted_eq calls w with hnil | ⟨c, head, v, v', rest, hs, hout⟩
  · exact .inl hnil
  · obtain ⟨hd, rfl, hseal⟩ := sealing_eq_ok hs
    obtain ⟨m, w₁, hm, hseal⟩ := exists_of_bind_eq_ok hseal
    obtain ⟨c', w₂, hc, hseal⟩ := exists_of_bind_eq_ok hseal
    obtain ⟨h', w₃, hh, hseal⟩ := exists_of_bind_eq_ok hseal
    cases hseal
    exact .inr ⟨m, c, hd, rest, v, w₁, w₂, v', hm, hc, hh, hout⟩

end FamilySession

/-! ## Dispatchers -/

namespace Dispatcher

variable [Session κ σ] {d : Dispatcher σ κ} {id : UInt32} {k : κ}

theorem update_beginEncrypt {b : Bytes} (hm : d.context.mode = .encrypt)
    (hp : d.phase = .selecting b) (hs : d.select d.encryptType none = .ok (id, k)) (input : Bytes)
    (w : σ) : update input (d, w) = match (Session.start : Step (κ × σ) Bytes) (k, w) with
      | .ok head t =>
        match Session.update input
          (({ d with phase := .selected id t.1 } : Dispatcher σ κ), t.2) with
        | .ok out u => .ok (Bytes.be32 id ++ head ++ out) u
        | .error e u => .error e u
      | .error e t => .error e (d, t.2) := by
  simp only [update, run_bind, run_get, hm, hp, beginEncrypt_known hs]
  cases (Session.start : Step (κ × σ) Bytes) (k, w) with
  | error e t => rfl
  | ok head t =>
    simp only [run_bind, run_get, run_pure, Session.update, update]
    cases onInner (Session.update input) id t.1
      (({ d with phase := .selected id t.1 } : Dispatcher σ κ), t.2) <;> rfl

theorem beginEncrypt_unknown {e : Error} (hs : d.select d.encryptType none = .error e) (w : σ) :
    beginEncrypt (d, w) = .error e (d, w) := by
  simp only [beginEncrypt, run_bind, run_get, run_check, hs]

theorem finalize_fresh {b : Bytes} (hm : d.context.mode = .encrypt) (hp : d.phase = .selecting b)
    (w : σ) : finalize (d, w) = .ok [] (d, w) := by
  simp only [finalize, run_bind, run_get, hm, hp, run_pure]

/-- An encrypting dispatcher puts the id in front of what the session for it begins, which may be of
any kind: one of a family, or a dispatcher again. -/
theorem begins {γ : Type} [ContentCipher σ γ] (hm : d.context.mode = .encrypt)
    (hp : d.phase = .selecting []) (hs : d.select d.encryptType none = .ok (id, k))
    {running : γ → κ} {s : FamilySession σ γ} {id' : Bytes}
    (h : Session.Begins k running (s.sealing id')) :
    Session.Begins d (fun c => { d with phase := .selected id (running c) })
      (s.sealing (Bytes.be32 id ++ id')) where
  fresh := by simp only [Session.isReady, hp]
  ready c := h.ready c
  start := by
    intro w
    refine ((start_beginEncrypt hm hp w).trans (beginEncrypt_known hs w)).trans ?_
    simp only [h.start, FamilySession.sealing, run_bind]
    cases FamilySession.sealNew s w with
    | error e w' => rfl
    | ok p w' => simp only [run_pure, List.append_assoc]
  update := by
    intro input w
    refine (update_beginEncrypt hm hp hs input w).trans ?_
    simp only [h.start, FamilySession.sealing, run_bind]
    cases FamilySession.sealNew s w with
    | error e w' => rfl
    | ok p w' =>
      simp only [run_pure, List.append_assoc]
      cases Session.update input
        (({ d with phase := .selected id (running p.1) } : Dispatcher σ κ), w') <;> rfl
  finalize w := finalize_fresh hm hp w
  run := by
    intro call c
    refine (run_choosing d id call (running c.1, c.2)).trans ?_
    rw [h.run]
    cases call.through c <;> rfl

/-- A dispatcher that has no session to encrypt with stays at its beginning and gives nothing. -/
theorem emitted_unknown {e : Error} (hm : d.context.mode = .encrypt) (hp : d.phase = .selecting [])
    (hs : d.select d.encryptType none = .error e) (calls : List Session.Call) (w : σ) :
    Session.emitted Session.Call.run calls (d, w) = [] := by
  have hrun (call : Session.Call) :
      given (call.run (d, w)) = [] ∧ reached (call.run (d, w)) = (d, w) := by
    cases call with
    | start =>
      have := (start_beginEncrypt hm hp w).trans (beginEncrypt_unknown hs w)
      simp only [Session.Call.run, Session.start, this]
      exact ⟨rfl, rfl⟩
    | update input =>
      simp only [Session.Call.run, Session.update, update, run_bind, run_get, hm, hp,
        beginEncrypt_unknown hs]
      exact ⟨rfl, rfl⟩
    | finalize =>
      simp only [Session.Call.run, Session.finalize, finalize_fresh hm hp]
      exact ⟨rfl, rfl⟩
  induction calls with
  | nil => rfl
  | cons call calls ih =>
    obtain ⟨hgiven, hreached⟩ := hrun call
    rw [Session.emitted, hgiven, hreached, ih]
    rfl

end Dispatcher

/-! ## What callers get -/

/-- **Ciphertext comes behind its header, unless this is lost.** Whatever fails in whatever calls,
an encrypting session of any family over any key wrap gives out nothing, or one header and the
ciphertext of the very key material that is sealed in it; the header is missing if, and only if, the
call that made it failed later on. A dispatcher does so behind its id, with whatever session it
encrypts; if it has none, it gives out nothing. -/
theorem emitted_encrypting [ContentCipher σ γ] (s : FamilySession σ γ) (calls : List Session.Call)
    (w : σ) :
    (s.mode = .encrypt → s.phase = .awaiting [] → s.Gives [] (Session.headLost calls (s, w))
      (Session.emitted Session.Call.run calls (s, w))) ∧
    ∀ {κ : Type} [Session κ σ] (d : Dispatcher σ κ), d.context.mode = .encrypt →
      d.phase = .selecting [] →
      (∀ e, d.select d.encryptType none = .error e →
        Session.emitted Session.Call.run calls (d, w) = []) ∧
      ∀ (id : UInt32) (k : κ) (running : γ → κ) (id' : Bytes),
        d.select d.encryptType none = .ok (id, k) → Session.Begins k running (s.sealing id') →
        s.Gives (Bytes.be32 id ++ id') (Session.headLost calls (d, w))
          (Session.emitted Session.Call.run calls (d, w)) := by
  constructor
  · intro hm hp
    exact FamilySession.gives_of_begins (FamilySession.begins hm hp) calls w
  · intro κ _ d hm hp
    constructor
    · intro e hs
      exact Dispatcher.emitted_unknown hm hp hs calls w
    · intro id k running id' hs h
      exact FamilySession.gives_of_begins (Dispatcher.begins hm hp hs h) calls w

section

open Scripted

/-- An encrypting session over scripted collaborators. -/
def holdSession : FamilySession World HoldCipher where
  mode := .encrypt
  family := holdFamily 0 1 7 4 4 []
  wrap := identityWrap 0
  random := randomSource 0
  options := ⟨7, true, true⟩

/-- Collaborators of which the content cipher fails in the given calls. -/
def holdWorld (failing : List Nat) : World where
  randoms := [⟨.counter 1, 0⟩]
  wraps := [{}]
  families := [{ updates := ⟨failing, 0⟩ }]

/-- A dispatcher that encrypts with this session. -/
def holdDispatcher : Dispatcher World (FamilySession World HoldCipher) where
  context := ⟨.encrypt, identityWrap 0, randomSource 0, true, true⟩
  registry := ({} : Registry World _).register 5 fun _ => holdSession
  encryptType := 5
  defaultType := none

/-- If the content cipher fails later on, the header has come first. -/
theorem emitted_holdSession :
    (holdSession.Gives [] false
        (Session.emitted Session.Call.run [.update [1], .update [2], .finalize]
          (holdSession, holdWorld [1])) ∧
      holdSession.Gives (Bytes.be32 5 ++ []) false
        (Session.emitted Session.Call.run [.start, .update [1], .update [2], .finalize]
          (holdDispatcher, holdWorld [1]))) ∧
    Session.emitted Session.Call.run [.update [1], .update [2], .finalize]
      (holdSession, holdWorld [1]) = Header.encode ⟨7, [1, 1, 1, 1], [2, 2, 2, 2]⟩ ++ [3] := by
  have hlost : Session.headLost [.update [1], .update [2], .finalize] (holdSession, holdWorld [1]) =
      false := by decide
  have hlost' : Session.headLost [.start, .update [1], .update [2], .finalize]
      (holdDispatcher, holdWorld [1]) = false := by decide
  refine ⟨⟨?_, ?_⟩, by decide⟩
  · have h := (emitted_encrypting holdSession [.update [1], .update [2], .finalize]
      (holdWorld [1])).1 rfl rfl
    rwa [hlost] at h
  · have h := ((emitted_encrypting holdSession [.start, .update [1], .update [2], .finalize]
      (holdWorld [1])).2 holdDispatcher rfl rfl).2 5 holdSession _ [] rfl
      (FamilySession.begins rfl rfl)
    rwa [hlost'] at h

/-- If it fails in the first call, ciphertext comes without a header. -/
theorem headLost_holdSession :
    Session.emitted Session.Call.run [.update [1], .update [2], .finalize]
      (holdSession, holdWorld [0]) = [0] ∧
    ∀ h : Header, ¬ h.encode <+:
      Session.emitted Session.Call.run [.update [1], .update [2], .finalize]
        (holdSession, holdWorld [0]) := by
  have hemitted : Session.emitted Session.Call.run [.update [1], .update [2], .finalize]
      (holdSession, holdWorld [0]) = [0] := by decide
  refine ⟨hemitted, fun h hpre => ?_⟩
  have hlen := hpre.length_le
  rw [hemitted, Header.length_encode, Header.encodedLen, Header.fixedLen,
    List.length_singleton] at hlen
  omega

end

end SealedStream
