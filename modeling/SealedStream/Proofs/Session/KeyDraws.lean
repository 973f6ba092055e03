import SealedStream.Proofs.Session.HeaderFirst

/-!
# Drawing key material

A family that draws its IVs in the usual way asks its random source for an IV, and then for one key
after the other until a call fails or gives a key that may be used, nine keys at most. What comes of
it is settled by what the source gives call by call (`KeyMaterial.foretell`), and so is how often it
is called (`KeyMaterial.generate_foretold`). A key that was refused is never sealed, and a session
whose key material could not be drawn is as it was, so that starting it draws everything anew.
-/

namespace SealedStream

variable {σ κ γ : Type}

/-- Bytes 8 to 11 are zero if there are twelve, and all others stay. -/
theorem getElem?_clearCounter (iv : Bytes) (i : Nat) :
    (clearCounter iv)[i]? = if 12 ≤ iv.length ∧ 8 ≤ i ∧ i < 12 then some 0 else iv[i]? := by
  unfold clearCounter
  by_cases h : 12 ≤ iv.length
  · have hlen : (iv.take 8).length = 8 := List.length_take_of_le (by omega)
    rw [if_pos h, List.append_assoc]
    rcases Nat.lt_or_ge i 8 with hi | hi
    · rw [if_neg (by omega), List.getElem?_append_left (by omega), List.getElem?_take_of_lt hi]
    · rw [List.getElem?_append_right (by omega), hlen]
      by_cases hi' : i < 12
      · have hc : i - 8 = 0 ∨ i - 8 = 1 ∨ i - 8 = 2 ∨ i - 8 = 3 := by omega
        rw [if_pos ⟨h, hi, hi'⟩]
        rcases hc with hc | hc | hc | hc <;> rw [hc] <;> rfl
      · rw [if_neg (by omega), List.getElem?_append_right (by simp; omega), List.getElem?_drop]
        congr 1
        simp
        omega
  · rw [if_neg h, if_neg fun hc => h hc.1]

/-! ## Calls of the random source -/

namespace CipherFamily

variable (F : CipherFamily σ γ) (random : RandomSource σ)

/-- How many bytes a call is for: the first one is for an IV, the others are for keys. -/
def drawLen (call : Nat) : Nat := if call = 0 then F.ivLen else F.keyLen

/-- The world after so many calls, whether they fail or not. -/
def afterDraws : Nat → σ → σ
  | 0, w => w
  | n + 1, w => reached (random.fill (F.drawLen n) (afterDraws n w))

/-- What the call gives, with all those before it made. -/
def draw (call : Nat) (w : σ) : Except Error Bytes :=
  (outcome (random.fill (F.drawLen call) (F.afterDraws random call w))).map Vector.toList

variable {F random} {call len : Nat} {w t : σ}

theorem draw_of_ok {bytes : Vector UInt8 len} (hlen : F.drawLen call = len)
    (h : random.fill len (F.afterDraws random call w) = .ok bytes t) :
    F.draw random call w = .ok bytes.toList ∧ F.afterDraws random (call + 1) w = t := by
  subst hlen
  rw [draw, afterDraws, h]
  exact ⟨rfl, rfl⟩

theorem draw_of_error {e : Error} (hlen : F.drawLen call = len)
    (h : random.fill len (F.afterDraws random call w) = .error e t) :
    F.draw random call w = .error e ∧ F.afterDraws random (call + 1) w = t := by
  subst hlen
  rw [draw, afterDraws, h]
  exact ⟨rfl, rfl⟩

/-- However calls are counted, so many were made. -/
theorem count_afterDraws {count : σ → Nat}
    (hcount : ∀ n v, count (reached (random.fill n v)) = count v + 1) (w : σ) (n : Nat) :
    count (F.afterDraws random n w) = count w + n := by
  induction n with
  | zero => rfl
  | succ n ih => rw [afterDraws, hcount, ih, Nat.add_assoc]

end CipherFamily

namespace KeyMaterial

/-- A call for a key ends the search unless its key is refused: zeros are, and it begins with one. -/
def settles (rejectZero : Bool) : Except Error Bytes → Bool
  | .ok (0 :: _) => !rejectZero
  | _ => true

/-- What drawing key material comes to, and after how many calls, if the calls give `f`. -/
def foretell (rejectZero : Bool) (f : Nat → Except Error Bytes) : Except Error KeyMaterial × Nat :=
  match f 0 with
  | .error e => (.error e, 1)
  | .ok iv =>
    match (List.range' 1 9).find? fun j => settles rejectZero (f j) with
    | some j => ((f j).map fun key => ⟨clearCounter iv, key⟩, j + 1)
    | none => (.error (.keyGenerationExhausted 9), 10)

theorem settles_ok (rejectZero : Bool) (key : Bytes) :
    settles rejectZero (.ok key) = !(rejectZero && key.head? == some 0) := by
  cases key with
  | nil => simp [settles]
  | cons b rest =>
    by_cases hb : b = 0
    · subst hb
      simp [settles]
    · simp [settles, hb]

variable (F : CipherFamily σ γ) (random : RandomSource σ)

/-- By induction on the keys that may still be drawn: the search goes on behind a key that is
refused. -/
theorem drawKey_foretold (rejectZero : Bool) (w : σ) : ∀ (n i : Nat), 0 < i →
    drawKey random F.keyLen rejectZero n (F.afterDraws random i w) =
      match (List.range' i n).find? fun j => settles rejectZero (F.draw random j w) with
      | some j =>
        match F.draw random j w with
        | .ok key => .ok key (F.afterDraws random (j + 1) w)
        | .error e => .error e (F.afterDraws random (j + 1) w)
      | none => .error (.keyGenerationExhausted maxAttempts) (F.afterDraws random (i + n) w)
  | 0, i, _ => rfl
  | n + 1, i, hi => by
    have hlen : F.drawLen i = F.keyLen := if_neg (by omega)
    have ih := drawKey_foretold rejectZero w n (i + 1) (by omega)
    rw [List.range'_succ, List.find?_cons]
    cases hfill : random.fill F.keyLen (F.afterDraws random i w) with
    | error e t =>
      obtain ⟨hdraw, hafter⟩ := CipherFamily.draw_of_error hlen hfill
      simp only [drawKey, run_bind, hfill, hdraw, settles, hafter]
    | ok key t =>
      obtain ⟨hdraw, hafter⟩ := CipherFamily.draw_of_ok hlen hfill
      rw [hafter] at ih
      simp only [drawKey, run_bind, hfill, run_ite, hdraw, settles_ok]
      cases hrefused : rejectZero && key.toList.head? == some 0 with
      | true =>
        simp only [if_true, Bool.not_true]
        rw [ih, Nat.add_right_comm]
        rfl
      | false =>
        simp only [Bool.false_eq_true, if_false, Bool.not_false, hdraw, hafter]
        rfl

/-- Drawing key material comes to what is foretold, after as many calls. -/
theorem generate_foretold (hF : F.generateIv = defaultIv F.ivLen) (rejectZero : Bool) (w : σ) :
    generate F random rejectZero w = match foretell rejectZero fun j => F.draw random j w with
      | (.ok m, n) => .ok m (F.afterDraws random n w)
      | (.error e, n) => .error e (F.afterDraws random n w) := by
  simp only [generate, hF, defaultIv, run_bind, run_pure]
  have hlen : F.drawLen 0 = F.ivLen := if_pos rfl
  cases hfill : random.fill F.ivLen w with
  | error e t =>
    obtain ⟨hdraw, hafter⟩ := CipherFamily.draw_of_error hlen hfill
    simp only [foretell, hdraw, hafter]
  | ok iv t =>
    obtain ⟨hdraw, hafter⟩ := CipherFamily.draw_of_ok hlen hfill
    have hkey := drawKey_foretold F random rejectZero w maxAttempts 1 Nat.one_pos
    rw [hafter] at hkey
    simp only [foretell, hdraw]
    rw [hkey, maxAttempts]
    cases (List.range' 1 9).find? fun j => settles rejectZero (F.draw random j w) with
    | none => rfl
    | some j => cases hj : F.draw random j w <;> simp only [hj] <;> rfl

variable {F random}

/-- If zeros are refused, no key begins with one, whichever draw it was. -/
theorem head?_drawKey {len : Nat} : ∀ {n : Nat} {w w' : σ} {key : Bytes},
    drawKey random len true n w = .ok key w' → key.head? ≠ some 0
  | 0, w, w', key, h => by cases h
  | n + 1, w, w', key, h => by
    obtain ⟨drawn, w₁, -, hdrawn⟩ := exists_of_bind_eq_ok h
    rw [run_ite] at hdrawn
    split at hdrawn
    · exact head?_drawKey hdrawn
    · rename_i hkept
      cases hdrawn
      simpa using hkept

theorem head?_generate {w w' : σ} {m : KeyMaterial} (h : generate F random true w = .ok m w') :
    m.key.head? ≠ some 0 := by
  obtain ⟨iv, w₁, -, h⟩ := exists_of_bind_eq_ok h
  obtain ⟨key, w₂, hkey, h⟩ := exists_of_bind_eq_ok h
  cases h
  exact head?_drawKey hkey

end KeyMaterial

/-! ## Sessions -/

namespace FamilySession

/-- What drawing key material for the session comes to, and after how many calls. -/
def foretold (s : FamilySession σ γ) (w : σ) : Except Error KeyMaterial × Nat :=
  KeyMaterial.foretell s.options.rejectZero fun j => s.family.draw s.random j w

/-- Makes the cipher for key material and seals the header. -/
def sealWith (s : FamilySession σ γ) (m : KeyMaterial) : Step σ (γ × Header) := do
  let cipher ← s.family.newCipher m.key m.iv .encrypt
  let header ← m.sealHeader s.wrap s.options.version
  return (cipher, header)

variable {s : FamilySession σ γ}

theorem sealNew_foretold (hF : s.family.generateIv = defaultIv s.family.ivLen) (w : σ) :
    sealNew s w = match s.foretold w with
      | (.ok m, n) => s.sealWith m (s.family.afterDraws s.random n w)
      | (.error e, n) => .error e (s.family.afterDraws s.random n w) := by
  have hnew : sealNew s w =
      (KeyMaterial.generate s.family s.random s.options.rejectZero >>= s.sealWith) w := rfl
  rw [hnew, run_bind, KeyMaterial.generate_foretold _ _ hF, foretold]
  generalize KeyMaterial.foretell s.options.rejectZero _ = p
  obtain ⟨r, n⟩ := p
  cases r <;> rfl

/-- How an encrypting session takes what its random source gives. It has the settings of `s`, is at
its beginning in the state `k₀`, puts `id` in front of its header, and is `running` its cipher from
then on. -/
structure Draws [Session κ σ] [ContentCipher σ γ] (s : FamilySession σ γ) (id : Bytes) (k₀ : κ)
    (running : γ → κ) : Prop where
  fresh : Session.isReady k₀ = false
  /-- If no key material can be drawn, the session stays where it is, in whatever world this is, so
  that the next call begins with another IV. -/
  start_failed : ∀ {w : σ} {e : Error} {n : Nat}, s.foretold w = (.error e, n) →
    Session.start (k₀, w) = .error e (k₀, s.family.afterDraws s.random n w)
  update_failed : ∀ {w : σ} {e : Error} {n : Nat}, s.foretold w = (.error e, n) →
    ∀ input : Bytes, Session.update input (k₀, w) = .error e (k₀, s.family.afterDraws s.random n w)
  /-- What is drawn is sealed. -/
  start : ∀ {w : σ} {m : KeyMaterial} {n : Nat}, s.foretold w = (.ok m, n) →
    Session.start (k₀, w) = match s.sealWith m (s.family.afterDraws s.random n w) with
      | .ok (c, h) w' => .ok (id ++ h.encode) (running c, w')
      | .error e w' => .error e (k₀, w')
  /-- If zeros are refused, whatever calls are made give nothing, or what belongs to a key that does
  not begin with one. -/
  nonzero : s.options.rejectZero = true → ∀ (calls : List Session.Call) (w : σ),
    Session.emitted Session.Call.run calls (k₀, w) = [] ∨
    ∃ (m : KeyMaterial) (c : γ) (h : Header) (rest : List Session.Call) (v v' : σ),
      m.key.head? ≠ some 0 ∧ s.sealWith m v = .ok (c, h) v' ∧
      Session.emitted Session.Call.run calls (k₀, w) =
        (if Session.headLost calls (k₀, w) then [] else id ++ h.encode) ++
          Session.emitted Session.Call.through rest (c, v')

/-- Whatever begins as a session of one family does takes its key material as such a session does. -/
theorem draws_of_begins [Session κ σ] [ContentCipher σ γ]
    (hF : s.family.generateIv = defaultIv s.family.ivLen) {k₀ : κ} {running : γ → κ} {id : Bytes}
    (h : Session.Begins k₀ running (s.sealing id)) : s.Draws id k₀ running where
  fresh := h.fresh
  start_failed := by
    intro w e n hfore
    rw [h.start, sealing, run_bind, sealNew_foretold hF, hfore]
  update_failed := by
    intro w e n hfore input
    rw [h.update, sealing, run_bind, sealNew_foretold hF, hfore]
  start := by
    intro w m n hfore
    have hnew : sealNew s w = s.sealWith m (s.family.afterDraws s.random n w) := by
      rw [sealNew_foretold hF, hfore]
    rw [h.start, sealing, run_bind, hnew]
    cases s.sealWith m (s.family.afterDraws s.random n w) <;> rfl
  nonzero := by
    intro hzero calls w
    rcases gives_of_begins h calls w with
      hnil | ⟨m, c, hd, rest, v, v₁, v₂, v₃, hm, hc, hseal, hout⟩
    · exact .inl hnil
    · rw [hzero] at hm
      refine .inr ⟨m, c, hd, rest, v₁, v₃, KeyMaterial.head?_generate hm, ?_, hout⟩
      simp only [sealWith, run_bind, hc, hseal, run_pure]

end FamilySession

/-- **Key material against every random source.** If a family draws its IVs in the usual way, drawing
key material comes to what the calls of the random source foretell, whether they give bytes or fail,
after exactly as many calls; bytes 8 to 11 of the IV are zero if it has twelve, and if zeros are
refused no key begins with one. An encrypting session stays at its beginning if no key material could
be drawn, to draw all of it anew, and seals what was drawn; so does a dispatcher of such sessions. -/
theorem KeyMaterial.generation_foretold [ContentCipher σ γ] (s : FamilySession σ γ)
    (hF : s.family.generateIv = defaultIv s.family.ivLen) :
    (∀ w : σ, generate s.family s.random s.options.rejectZero w = match s.foretold w with
      | (.ok m, n) => .ok m (s.family.afterDraws s.random n w)
      | (.error e, n) => .error e (s.family.afterDraws s.random n w)) ∧
    (∀ count : σ → Nat, (∀ n v, count (reached (s.random.fill n v)) = count v + 1) → ∀ w : σ,
      count (reached (generate s.family s.random s.options.rejectZero w)) =
        count w + (s.foretold w).2) ∧
    (∀ (iv : Bytes) (i : Nat), (clearCounter iv)[i]? =
      if 12 ≤ iv.length ∧ 8 ≤ i ∧ i < 12 then some 0 else iv[i]?) ∧
    (s.options.rejectZero = true → ∀ {w w' : σ} {m : KeyMaterial},
      generate s.family s.random true w = .ok m w' → m.key.head? ≠ some 0) ∧
    (s.mode = .encrypt → s.phase = .awaiting [] →
      s.Draws [] s fun c => { s with phase := .ready c }) ∧
    ∀ {κ : Type} [Session κ σ] (d : Dispatcher σ κ), d.context.mode = .encrypt →
      d.phase = .selecting [] → ∀ (id : UInt32) (k : κ) (running : γ → κ) (id' : Bytes),
      d.select d.encryptType none = .ok (id, k) → Session.Begins k running (s.sealing id') →
      s.Draws (Bytes.be32 id ++ id') d fun c => { d with phase := .selected id (running c) } := by
  refine ⟨generate_foretold _ _ hF _, ?_, getElem?_clearCounter, fun _ => head?_generate, ?_, ?_⟩
  · intro count hcount w
    rw [generate_foretold _ _ hF, FamilySession.foretold]
    generalize foretell s.options.rejectZero _ = p
    obtain ⟨r, n⟩ := p
    cases r <;> exact CipherFamily.count_afterDraws hcount w n
  · intro hm hp
    exact FamilySession.draws_of_begins hF (FamilySession.begins hm hp)
  · intro κ _ d hm hp id k running id' hs h
    exact FamilySession.draws_of_begins hF (Dispatcher.begins hm hp hs h)

section

open Scripted

/-- An encrypting session that refuses zeros, with IVs of 16 bytes and keys of four. -/
def choosySession : FamilySession World HoldCipher where
  mode := .encrypt
  family := holdFamily 0 1 7 4 16 []
  wrap := identityWrap 0
  random := randomSource 0
  options := ⟨7, true, true⟩

/-- A random source that fails behind a key that is refused, and gives another such key later on. -/
def choosyWorld (calls : Nat) : World where
  randoms := [⟨.entries [some [9], some [0, 5], none, some [8], some [0], some [7]], calls⟩]

/-- A dispatcher that encrypts with this session. -/
def choosyDispatcher : Dispatcher World (FamilySession World HoldCipher) where
  context := ⟨.encrypt, identityWrap 0, randomSource 0, true, true⟩
  registry := holdDispatcher.registry.register 5 fun _ => choosySession
  encryptType := 5
  defaultType := none

/-- The first start fails with the third call, and the second one seals what the next three give. -/
theorem start_choosySession :
    Session.start (choosySession, choosyWorld 0) =
      .error (failure "scripted random failure") (choosySession, choosyWorld 3) ∧
    Session.start (choosySession, choosyWorld 3) =
      .ok (Header.encode ⟨7, clearCounter (.replicate 16 8), [7, 7, 7, 7]⟩)
        ({ choosySession with phase := .ready { cell := 0, hold := 1, tail := [], mask := 7 } },
          choosyWorld 6) ∧
    choosySession.Draws (Bytes.be32 5 ++ []) choosyDispatcher fun c =>
      { choosyDispatcher with phase := .selected 5 { choosySession with phase := .ready c } } := by
  obtain ⟨-, -, -, -, hdraws, hdispatch⟩ := KeyMaterial.generation_foretold choosySession rfl
  have h := hdraws rfl rfl
  have hfailed : choosySession.foretold (choosyWorld 0) =
      (.error (failure "scripted random failure"), 3) := by rfl
  have hdrawn : choosySession.foretold (choosyWorld 3) =
      (.ok ⟨clearCounter (.replicate 16 8), [7, 7, 7, 7]⟩, 3) := by rfl
  refine ⟨h.start_failed hfailed, ?_, ?_⟩
  · rw [h.start hdrawn]
    rfl
  · exact hdispatch choosyDispatcher rfl rfl 5 choosySession _ [] rfl
      (FamilySession.begins rfl rfl)

end

end SealedStream
