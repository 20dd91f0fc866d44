import Intaktok.Media.Service
/-
# The size limit

| here | there |
| --- | --- |
| `Enforced` | the limit of `README.md:203` (`MEDIA_MAX_BYTES`), for the media a client has uploaded |
| `Measured` | what `complete` would have to check before its update (`media.service.ts:90`) |

`createUploadUrl` compares the size the client announces with the limit and `complete` stores the
size the storage reports, which it compares with nothing. What no completion has stored above the
limit stays within it (`ready_within_limit`): an announced size is within the limit, and so is one
that a completion keeps because the storage reports none. A single completion that stores more
leaves a READY object above the limit (`limit_exceeded`).
-/

namespace Intaktok.MediaService

open Interleave Tables

/-- Every READY object is within the limit. -/
def Enforced (cfg : AppConfig) (db : Db) : Prop :=
  ∀ m ∈ db.media.rows, m.status = .READY → m.byteSize ≤ cfg.mediaMaxBytes

/-- The size no completion stores is one above the limit that the storage has reported. A size no
`Int` column holds is not stored. -/
def Measured (cfg : AppConfig) : Discipline World Call Pc where
  alone call _ pc := ∀ mediaId requesterId media n, call = .complete mediaId requesterId →
    pc = .ready media (some n) → n < intEnd → n ≤ cfg.mediaMaxBytes
  beside _ _ _ _ _ := True

/-- What a call knows before its write: the announced size has been compared, and the row a
completion has read is still there and was within the limit. -/
structure Compared (cfg : AppConfig) (call : Call) (w : World) (pc : Pc) : Prop where
  announced : ∀ uploaderId dto, call = .createUploadUrl uploaderId dto → pc = .create →
    dto.byteSize ≤ cfg.mediaMaxBytes
  read : ∀ mediaId requesterId media, call = .complete mediaId requesterId →
    pc.seen = some media →
    media.byteSize ≤ cfg.mediaMaxBytes ∧ ∃ m ∈ w.db.media.rows, m.id = mediaId

def limiting (cfg : AppConfig) : Outline World Call Pc where
  glob w := ∀ m ∈ w.db.media.rows, m.byteSize ≤ cfg.mediaMaxBytes
  own call w pc := Compared cfg call w pc
  apart _ _ _ _ := True

section Step
variable {cfg : AppConfig} {call : Call} {w w' : World} {pc pc' : Pc}

/-- No row goes away. -/
theorem Acts.kept (h : Acts w call pc w' pc') {mediaId : String}
    (hin : ∃ m ∈ w.db.media.rows, m.id = mediaId) : ∃ m ∈ w'.db.media.rows, m.id = mediaId := by
  obtain ⟨m, hm, rfl⟩ := hin
  cases h with
  | created _ _ _ hins => exact ⟨m, (Table.mem_insert hins).2 (.inl hm), rfl⟩
  | completed _ _ =>
    refine ⟨_, mem_updateMedia.2 ⟨m, hm, rfl⟩, ?_⟩
    split <;> rfl
  | _ => exact ⟨m, hm, rfl⟩

theorem Compared.kept {call₂ : Call} {pc₂ : Pc} (h : Acts w call pc w' pc')
    (hown : Compared cfg call₂ w pc₂) : Compared cfg call₂ w' pc₂ :=
  ⟨hown.announced, fun mediaId r media hcall hseen =>
    ⟨(hown.read mediaId r media hcall hseen).1, h.kept (hown.read mediaId r media hcall hseen).2⟩⟩

theorem compared_start (cfg : AppConfig) (call : Call) (w : World) :
    Compared cfg call w (start cfg call) := by
  refine ⟨?_, ?_⟩
  · rintro u dto rfl hpc
    simp only [start] at hpc
    split at hpc
    · cases hpc
    · rename_i hle
      exact Nat.not_lt.1 hle
  · rintro mediaId r media rfl hseen
    cases hseen

/-- The size a completion stores is within the limit. -/
theorem stored_le {mediaId requesterId : String} {media : Media} {contentLength : Option Nat}
    (hfits : contentLength.getD media.byteSize < intEnd)
    (ha : (Measured cfg).alone (.complete mediaId requesterId) w (.ready media contentLength))
    (hown : Compared cfg (.complete mediaId requesterId) w (.ready media contentLength)) :
    contentLength.getD media.byteSize ≤ cfg.mediaMaxBytes := by
  cases contentLength with
  | none => exact (hown.read mediaId requesterId media rfl rfl).1
  | some n => exact ha mediaId requesterId media n rfl rfl hfits

theorem limited_of_acts (h : Acts w call pc w' pc') (ha : (Measured cfg).alone call w pc)
    (hglob : (limiting cfg).glob w) (hown : Compared cfg call w pc) : (limiting cfg).glob w' := by
  cases h with
  | created _ hsize _ hins =>
    intro m hm
    rcases (Table.mem_insert hins).1 hm with hm | rfl
    · exact hglob m hm
    · rw [hsize]
      exact hown.announced _ _ rfl rfl
  | completed hfits _ =>
    intro m hm
    obtain ⟨x, hx, rfl⟩ := mem_updateMedia.1 hm
    split
    · exact stored_le hfits ha hown
    · exact hglob x hx
  | _ => exact hglob

theorem compared_of_acts (h : Acts w call pc w' pc') (hglob : (limiting cfg).glob w)
    (hown : Compared cfg call w pc) : Compared cfg call w' pc' := by
  refine ⟨?_, ?_⟩
  · rintro u dto rfl rfl
    cases h with
    | aside _ _ _ hcreate => exact absurd rfl hcreate
  · rintro mediaId r media rfl hseen
    cases h with
    | aside _ _ hnone _ =>
      rw [hnone] at hseen
      cases hseen
    | found hfind =>
      cases hseen
      obtain ⟨hm, hid⟩ := Table.find_some hfind
      exact ⟨hglob _ hm, _, hm, beq_iff_eq.1 hid⟩
    | measured _ => exact hown.read mediaId r media rfl hseen
    | refused _ => cases hseen
    | completed _ _ => cases hseen

/-- A completion that stores more than the limit leaves a READY object above it. -/
theorem exceeded_of_acts (h : Acts w call pc w' pc') (ha : ¬ (Measured cfg).alone call w pc)
    (hown : Compared cfg call w pc) : ¬ Enforced cfg w'.db := by
  simp only [Measured] at ha
  push Not at ha
  obtain ⟨mediaId, requesterId, media, n, rfl, rfl, hfits, hlt⟩ := ha
  obtain ⟨-, m, hm, hid⟩ := hown.read mediaId requesterId media rfl rfl
  cases h with
  | aside _ hready _ _ => exact absurd rfl (hready media (some n))
  | refused h =>
    rcases h with hbig | hnone
    · exact absurd hfits (Nat.not_lt.2 hbig)
    · have hno := Table.find_none.1 hnone m hm
      simp [hid] at hno
  | completed _ _ =>
    intro hall
    have hrow : setReady n m ∈ (updateMedia w.db.media mediaId n).rows :=
      mem_updateMedia.2 ⟨m, hm, by simp [hid]⟩
    exact absurd (hall _ hrow rfl) (Nat.not_le.2 hlt)

end Step

theorem limiting_valid (cfg : AppConfig) :
    (limiting cfg).Valid (machine cfg) (Measured cfg) .top where
  move a :=
    have hacts := acts_of_step a.step
    ⟨limited_of_acts hacts a.alone a.glob a.own, compared_of_acts hacts a.glob a.own⟩
  keep a b := ⟨b.own.kept (acts_of_step a.step), trivial⟩
  symm _ := trivial
  env _ _ hglob := ⟨hglob, fun hown => ⟨hown.announced, hown.read⟩⟩

/-- **The limit holds where it is checked.** As long as no completion stores a size above the limit
that the storage has reported, every READY object is within it; the first that does ends that. -/
theorem ready_within_limit {ι : Type} [DecidableEq ι] (cfg : AppConfig) (calls : ι → Call)
    (w : World) (P : Pool World Pc ι) (hw : ∀ m ∈ w.db.media.rows, m.byteSize ≤ cfg.mediaMaxBytes)
    (h : Run (machine cfg) (Measured cfg) calls ((machine cfg).initial calls w) P) :
    Enforced cfg P.shared.db ∧ ∀ i c w' pc',
      (machine cfg).step c (calls i) P.shared (P.pcs i) = some (w', pc') →
        (Enforced cfg w'.db ↔ (Measured cfg).allows calls P i) := by
  have h0 : (limiting cfg).Holds calls ((machine cfg).initial calls w) :=
    ⟨hw, fun i => compared_start cfg (calls i) w, fun _ _ _ => trivial⟩
  have hholds := (limiting_valid cfg).run (fun _ => Outline.top_holds _ _) h0 h
  refine ⟨fun m hm _ => hholds.glob m hm, fun i c w' pc' hs => ⟨fun hall => ?_, fun ha => ?_⟩⟩
  · by_contra hno
    refine exceeded_of_acts (acts_of_step hs) (fun ha => hno ⟨ha, fun _ _ => trivial⟩)
      (hholds.own i) hall
  · exact fun m hm _ => limited_of_acts (acts_of_step hs) ha.1 hholds.glob (hholds.own i) m hm

/-! ### An upload of another size -/

def withUploader : World :=
  { db := { users := ⟨[⟨"u", "k", .ACTIVE⟩], by decide⟩ } }

/-- A photo of 1 MiB is announced, an object of `contentLength` bytes is put, and the upload is
completed. -/
def photo (contentLength : Nat) : Fin 3 → Call
  | 0 => .createUploadUrl "u" { mimeType := "image/png", byteSize := 1048576 }
  | 1 => .putObject "media/1970/01/p.png" contentLength
  | 2 => .complete "m" "u"

/-- Up to the update of the completion. -/
def photoPut : List (Move (Fin 3) Choice Nat) :=
  [.step 0 { id := "m", uuid := "p" }, .step 0 {}, .step 1 {}, .step 2 {}, .step 2 {}]

/-- `Measured` for a schedule. -/
def measuredOk (cfg : AppConfig) (P : Pool World Pc (Fin 3)) (i : Fin 3) : Bool :=
  match P.pcs i with
  | .ready _ (some n) => n ≤ cfg.mediaMaxBytes
  | _ => true

theorem measuredOk_allows {cfg : AppConfig} {calls : Fin 3 → Call} {P : Pool World Pc (Fin 3)}
    {i : Fin 3} (h : measuredOk cfg P i = true) : (Measured cfg).allows calls P i := by
  refine ⟨?_, fun _ _ => trivial⟩
  rintro mediaId r media n - hpc -
  rw [measuredOk, hpc] at h
  exact of_decide_eq_true h

def isReady : Pc → Bool
  | .url media => media.status == .READY
  | _ => false

/-- A photo of 2 MiB. -/
theorem ready_within_limit_photo : ∃ P : Pool World Pc (Fin 3),
    Run (machine {}) (Measured {}) (photo 2097152)
      ((machine {}).initial (photo 2097152) withUploader) P ∧
    isReady (P.pcs 2) = true ∧ Enforced {} P.shared.db := by
  have hexec : ((machine {}).exec (measuredOk {}) (photo 2097152)
      ((machine {}).initial (photo 2097152) withUploader) (photoPut ++ [.step 2 {}])).any (fun P =>
        isReady (P.pcs 2)) = true := by decide
  obtain ⟨P, hrun, hP⟩ := Machine.exec_reaches (D := Measured {}) measuredOk_allows hexec
  exact ⟨P, hrun, hP, (ready_within_limit {} (photo 2097152) withUploader P (by decide) hrun).1⟩

/-- **An upload above the limit.** A photo is announced with 1 MiB and put with 60 MB. -/
theorem limit_exceeded : ¬ ∀ (ι : Type) [DecidableEq ι] (cfg : AppConfig) (calls : ι → Call)
    (w : World) (P : Pool World Pc ι), (∀ m ∈ w.db.media.rows, m.byteSize ≤ cfg.mediaMaxBytes) →
    Run (machine cfg) Discipline.free calls ((machine cfg).initial calls w) P →
    Enforced cfg P.shared.db := by
  intro h
  have hexec : ((machine {}).exec always (photo 60000000)
      ((machine {}).initial (photo 60000000) withUploader) (photoPut ++ [.step 2 {}])).any
        (fun P => P.shared.db.media.rows.any fun m =>
          m.status == .READY && m.byteSize == 60000000) = true := by decide
  obtain ⟨P, hrun, hP⟩ := Machine.exec_reaches_free hexec
  obtain ⟨m, hm, hbig⟩ := List.any_eq_true.1 hP
  simp only [Bool.and_eq_true, beq_iff_eq] at hbig
  have hle := h (Fin 3) {} (photo 60000000) withUploader P (by decide) hrun m hm hbig.1
  rw [hbig.2] at hle
  exact absurd hle (by decide)

end Intaktok.MediaService
