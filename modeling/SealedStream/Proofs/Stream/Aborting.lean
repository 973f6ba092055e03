import SealedStream.Proofs.Session.HeaderFirst
import SealedStream.Proofs.Stream.ReadTower
import SealedStream.Proofs.Stream.Unmistaken
import SealedStream.Proofs.Stream.WriteTower

/-!
# Aborts last and reach down

Adapters that stand on each other in any number and order, share flags or not, and are used in any
order: what `ReadTower` and `WriteTower` show of them, together.
-/

namespace SealedStream

variable {σ κ ρ ς : Type}

/-- **Aborts last and reach down.** An abort raises the flags from its adapter down to the first that
does not pass it on, or to what the tower stands on. Flags stay up, whatever is asked of whichever
adapter, and whoever shares them. An adapter whose flag is up refuses what it looks at it for without
what it stands on; a writer also when it goes out of use. -/
theorem aborts_last [Session κ σ] (fuel n : Nat) :
    (∀ [Source σ ρ] [Seekable σ ρ] [Abortable σ ρ] {token : ρ → Option AbortHandle},
      Source.Carries (Goes (σ := σ) token) → Raises (σ := σ) token →
        (ReadTower.stack κ Checksum token).Stops n (ReadTower.after fuel n) (.ask .abort) ∧
          ∀ {level m : Nat} {t : ReadTower κ Checksum ρ n × Env σ}
            {layer : ReadLayer κ Checksum (ReadTower κ Checksum ρ m)} {request},
              (ReadTower.stack (σ := σ) κ Checksum token).adapterAt n t.1 level = some ⟨m, layer⟩ →
              (∀ h, (ReadTower.stack (σ := σ) κ Checksum token).tokenAt n t.1 level = some h →
                h.isAborted t.2 = true) → layer.Heeds request →
                  layer.Refused fuel request t.2 ∧
                    outcome (ReadTower.asked fuel level request n t) = .error .aborted) ∧
    ∀ [Sink σ ς] [Abortable σ ς] {token : ς → Option AbortHandle},
      Sink.Carries (Goes (σ := σ) token) → Raises (σ := σ) token →
        (WriteTower.stack κ Checksum token).Stops n (WriteTower.after fuel n) .abort ∧
          ∀ {level m : Nat} {s t : WriteTower κ Checksum ς n × Env σ}
            {layer : WriteLayer κ Checksum (WriteTower κ Checksum ς m)} {request},
              WriteTower.Unclosed (σ := σ) token n s.1 →
              (WriteTower.stack κ Checksum token).Leads (WriteTower.after fuel n) s t →
              (WriteTower.stack (σ := σ) κ Checksum token).adapterAt n t.1 level = some ⟨m, layer⟩ →
              (∀ h, (WriteTower.stack (σ := σ) κ Checksum token).tokenAt n t.1 level = some h →
                h.isAborted t.2 = true) → layer.Heeds request →
                  layer.Refused fuel request t.2 ∧
                    outcome (WriteTower.asked fuel level request n t) = WriteLayer.answer request := by
  refine ⟨fun hG hR => ⟨ReadTower.stops hG hR n, ReadTower.refused⟩,
    fun hG hR => ⟨WriteTower.stops hG hR n, ?_⟩⟩
  intro level m s t layer request hu hleads hlayer hup hr
  have hgo := Stack.goes_of_leads (WriteTower.goes_after hG) hleads
  exact WriteTower.refused (hu.goes hgo) hlayer hup hr

section

open Scripted

/-- Scripted sources look at no flag and lower none. -/
theorem carries_scriptedSource {σ : Type} :
    Source.Carries (Goes (σ := σ) fun _ : ScriptedSource => none) where
  below h := h.2
  trans h h' := ⟨h.1.trans h'.1, h.2.trans h'.2⟩
  elsewhere henv := ⟨.refl _, henv⟩
  read fuel n := by
    rintro ⟨r, env⟩
    refine ⟨.refl _, ?_⟩
    have h := below_runEvents r.reads r.readEvents env
    simp only [Source.read]
    rcases hrun : runEvents r.reads r.readEvents env with ⟨_ | _ | _, env'⟩ <;>
      rw [hrun] at h <;> exact h
  position s := ⟨.refl _, upholds_scripted.position s⟩
  seek p s := ⟨.refl _, upholds_scripted.seek p s⟩
  abort _ := ⟨.refl _, .refl _⟩

/-- Nor do scripted sinks. -/
theorem carries_scriptedSink {σ : Type} :
    Sink.Carries (Goes (σ := σ) fun _ : ScriptedSink => none) where
  below h := h.2
  trans h h' := ⟨h.1.trans h'.1, h.2.trans h'.2⟩
  elsewhere henv := ⟨.refl _, henv⟩
  write fuel bytes := by
    rintro ⟨w, env⟩
    refine ⟨.refl _, ?_⟩
    have h := below_runEvents w.writes w.writeEvents env
    simp only [Sink.write]
    rcases hrun : runEvents w.writes w.writeEvents env with ⟨_ | _ | _, env'⟩ <;>
      rw [hrun] at h <;> exact h
  flush fuel := by
    rintro ⟨w, env⟩
    refine ⟨.refl _, ?_⟩
    have h := below_runEvents w.flushes w.flushEvents env
    simp only [Sink.flush]
    rcases hrun : runEvents w.flushes w.flushEvents env with ⟨_ | _ | _, env'⟩ <;>
      rw [hrun] at h <;> exact h
  abort _ := ⟨.refl _, .refl _⟩

/-- A cipher reader on a checksum on a source behind a flag. -/
def reading : ReadTower (FamilySession World HoldCipher) Checksum ScriptedSource 3 :=
  ReadLayer.cipher (.new (ReadLayer.checked
    ⟨ReadLayer.abortable ⟨{ data := #[1] }, .shared 8⟩, .group []⟩) holdSession 8 (.shared 7))

/-- And a writer that looks at the same flags. -/
def writing : WriteTower (FamilySession World HoldCipher) Checksum ScriptedSink 3 :=
  WriteLayer.cipher
    { inner := WriteLayer.checked ⟨WriteLayer.abortable ⟨{}, .shared 8⟩, .group []⟩
      session := holdSession
      abort := .shared 7 }

/-- Of the reader the cipher is aborted; then the source is read. -/
def abandoned : ReadTower (FamilySession World HoldCipher) Checksum ScriptedSource 3 × Env World :=
  ReadTower.after 90 3 1 (.ask (.use (.read 4)))
    (ReadTower.after 90 3 3 (.ask .abort) (reading, ⟨[], holdWorld []⟩))

/-- Then the source fails, and so does finishing the writer. -/
theorem aborts_last_together :
    outcome (ReadTower.asked 90 1 (.ask (.use (.read 4))) 3 abandoned) = .error .aborted ∧
      outcome (WriteTower.asked 90 3 .finish 3 (writing, abandoned.2)) = .error .aborted := by
  obtain ⟨hreaders, hwriters⟩ := aborts_last (σ := World) (κ := FamilySession World HoldCipher)
    (ρ := ScriptedSource) (ς := ScriptedSink) 90 3
  obtain ⟨hstops, hrefuse⟩ := hreaders carries_scriptedSource nofun
  obtain ⟨-, hgiveUp⟩ := hwriters carries_scriptedSink nofun
  have htold (j : Nat) (hj : j = 1 ∨ j = 3) : (ReadTower.stack (σ := World)
      (FamilySession World HoldCipher) Checksum fun _ : ScriptedSource => none).Told reading 3 j := by
    refine ⟨by omega, fun k hjk hk => ?_⟩
    obtain rfl | rfl : k = 2 ∨ k = 3 := by omega
    · exact trivial
    · exact trivial
  have hup (j : Nat) (hj : j = 1 ∨ j = 3) := hstops.reaches (s := (reading, ⟨[], holdWorld []⟩))
    (by decide) (Nat.le_refl 3) (htold j hj) (.asked 1 (.ask (.use (.read 4))) .refl)
  constructor
  · have hlayer : (ReadTower.stack (σ := World) (FamilySession World HoldCipher) Checksum
        fun _ : ScriptedSource => none).adapterAt 3 abandoned.1 1 =
          some ⟨0, ReadLayer.abortable ⟨{ data := #[1] }, .shared 8⟩⟩ := rfl
    exact (hrefuse hlayer (hup 1 (.inl rfl)).1
      (show ReadLayer.Heeds (.ask (.use (.read 4))) _ from trivial)).2
  · have hclosed : WriteTower.Unclosed (σ := World) (fun _ => none) 3 writing := by
      refine WriteTower.unclosed_succ (n := 2) ?_ (WriteTower.unclosed_succ (n := 1) ?_
        (WriteTower.unclosed_succ (n := 0) ?_ (WriteTower.unclosed_zero _)))
      · exact rfl
      · exact trivial
      · exact trivial
    have hlayer : (WriteTower.stack (σ := World) (FamilySession World HoldCipher) Checksum
        fun _ : ScriptedSink => none).adapterAt 3 writing 3 = some ⟨2, writing⟩ := rfl
    refine (hgiveUp (t := (writing, abandoned.2)) hclosed .refl hlayer ?_
      (show WriteLayer.Heeds .finish _ from trivial)).2
    rintro h ⟨⟩
    exact (hup 3 (.inr rfl)).2 7 rfl

end

end SealedStream
