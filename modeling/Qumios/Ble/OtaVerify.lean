import Qumios.Ble.OtaGating

/-! What a verified image is: the second half of `qm_ble_ota.c`.

`Ota` leaves open what verification says. Here it is computed: the digest functions read the
image back from the flash in pieces of a staging buffer, feed each piece to the hash, and stop
at a read that fails, with the digest of what was read so far. That digest is then compared
like any other (`hashCheck_prefix`). So a positive answer speaks for the whole image where
every read succeeds (`verified_digest`), and otherwise for the part in front of the failure.

MD5 is a parameter, assumed to be one; CRC-32 is the source's. SHA-1 is accepted in a request
and never computed. The image of an MCU is verified by the callback, not by the flash. -/
namespace Qumios.Ble.Ota
open Buffer Run List

/-! ### CRC-32 -/

/-- One bit of `qm_utils_crc32`. -/
def crcBit (crc : UInt32) : UInt32 :=
  (crc >>> 1) ^^^ (0xEDB88320 &&& (if crc &&& 1 ≠ 0 then 0xFFFFFFFF else 0))

def crcByte (crc : UInt32) (byte : UInt8) : UInt32 := crcBit^[8] (crc ^^^ byte.toUInt32)

/-- `qm_utils_crc32`. -/
def crc32 (data : Bytes) (initCrc : UInt32) : UInt32 :=
  ~~~ (data.foldl crcByte (if initCrc = 0 then 0xFFFFFFFF else ~~~ initCrc))

theorem crc32_eq (data : Bytes) (initCrc : UInt32) : crc32 data initCrc = ~~~ (data.foldl crcByte (~~~ initCrc)) := by
  rw [crc32]
  split
  · next hzero =>
    rw [hzero]
    rfl
  · rfl

theorem crc32_append (a b : Bytes) (initCrc : UInt32) : crc32 b (crc32 a initCrc) = crc32 (a ++ b) initCrc := by
  rw [crc32_eq b, crc32_eq a, crc32_eq, UInt32.not_not, foldl_append]

theorem crc32_chunks (chunks : List Bytes) (initCrc : UInt32) :
    chunks.foldl (fun crc buf => crc32 buf crc) initCrc = crc32 chunks.flatten initCrc := by
  induction chunks generalizing initCrc with
  | nil => rw [foldl_nil, flatten_nil, crc32_eq, foldl_nil, UInt32.not_not]
  | cons chunk rest ih => rw [foldl_cons, ih, crc32_append, flatten_cons]

/-! ### Digests of the flash -/

/-- The hashes of a request. `md5` is what the MD5 functions compute of what they are fed, however it
is cut; nothing computes `sha1`. -/
structure Hashes where
  Ctx : Type
  md5Starts : Ctx
  md5Update : Ctx → Bytes → Ctx
  md5Finish : Ctx → Bytes
  md5 : Bytes → Bytes
  sha1 : Bytes → Bytes
  md5_correct : ∀ chunks : List Bytes, md5Finish (chunks.foldl md5Update md5Starts) = md5 chunks.flatten
  md5_length : ∀ data, (md5 data).length = 16

def Hashes.digest (H : Hashes) (hash : UInt8) (data : Bytes) : Bytes :=
  if hash = hashMd5 then H.md5 data else if hash = hashSha1 then H.sha1 data else be32 (crc32 data 0).toNat

/-- The `n` bytes of the flash from `off` on. -/
def flashBytes (flash : Nat → UInt8) (off n : Nat) : Bytes := (List.range' off n).map flash

theorem flashBytes_append (flash : Nat → UInt8) (off n m : Nat) :
    flashBytes flash off n ++ flashBytes flash (off + n) m = flashBytes flash off (n + m) := by
  rw [flashBytes, flashBytes, flashBytes, ← map_append, range'_append_1]

/-- The loop of `qm_ble_ota_md5_get` and `qm_ble_ota_crc32_get`; `reads k` says whether the `k`-th read
succeeds. A round reads at least one byte, so there are no more rounds than bytes. -/
def readLoop {σ : Type} (update : σ → Bytes → σ) (flash : Nat → UInt8) (reads : Nat → Bool) (fileSize : Nat) :
    Nat → Nat → Nat → σ → σ
  | 0, _, _, s => s
  | rounds + 1, k, tmpOffset, s =>
    if tmpOffset < fileSize then
      let readLen := if fileSize - tmpOffset > bufSize then bufSize else fileSize - tmpOffset
      if reads k then
        readLoop update flash reads fileSize rounds (k + 1) (tmpOffset + readLen)
          (update s (flashBytes flash tmpOffset readLen))
      else s
    else s

/-- `qm_ble_ota_md5_get`. -/
def md5Get (H : Hashes) (flash : Nat → UInt8) (reads : Nat → Bool) (fileSize : Nat) : Bytes :=
  H.md5Finish (readLoop H.md5Update flash reads fileSize fileSize 0 0 H.md5Starts)

/-- `qm_ble_ota_crc32_get`. -/
def crc32Get (flash : Nat → UInt8) (reads : Nat → Bool) (fileSize : Nat) : UInt32 :=
  readLoop (fun crc buf => crc32 buf crc) flash reads fileSize fileSize 0 0 0

/-- `qm_ble_hash_check`: what it leaves in `is_valid`, which starts as zero. -/
def hashCheck (H : Hashes) (flash : Nat → UInt8) (reads : Nat → Bool) (f : OtaFile) : Bool :=
  if f.hash = hashMd5 then (md5Get H flash reads f.fileSize).take f.hashLen = f.hashValue.take f.hashLen
  else if f.hash = hashSha1 then false
  else if f.hash = hashCrc32 then
    (be32 (crc32Get flash reads f.fileSize).toNat).take f.hashLen = f.hashValue.take f.hashLen
  else false

def Readable (reads : Nat → Bool) (fileSize : Nat) : Prop := ∀ k, k * bufSize < fileSize → reads k = true

/-- **What the loop feeds to the hash**: the image up to the first read that fails. -/
theorem readLoop_spec {σ : Type} (update : σ → Bytes → σ) (flash : Nat → UInt8) (reads : Nat → Bool)
    (fileSize : Nat) {rounds k off : Nat} (s : σ) (hoff : off ≤ fileSize) (hrounds : fileSize - off ≤ rounds) :
    ∃ (chunks : List Bytes) (n : Nat), readLoop update flash reads fileSize rounds k off s = chunks.foldl update s ∧
      chunks.flatten = flashBytes flash off n ∧ n ≤ fileSize - off ∧
      ((∀ j, off + j * bufSize < fileSize → reads (k + j) = true) → n = fileSize - off) := by
  have hnone (off : Nat) : ([] : List Bytes).flatten = flashBytes flash off 0 := rfl
  induction rounds generalizing k off s with
  | zero => exact ⟨[], 0, rfl, hnone off, Nat.zero_le _, fun _ => by omega⟩
  | succ rounds ih =>
    rw [readLoop]
    by_cases hmore : off < fileSize
    · rw [if_pos hmore]
      obtain ⟨len, hlen⟩ : ∃ len, len = if fileSize - off > bufSize then bufSize else fileSize - off := ⟨_, rfl⟩
      have hpos : 0 < len ∧ len ≤ fileSize - off ∧ (off + len = fileSize ∨ len = bufSize) := by
        have hbuf : 0 < bufSize := by decide
        split at hlen <;> omega
      rw [← hlen]
      cases hread : reads k with
      | false =>
        refine ⟨[], 0, rfl, hnone off, Nat.zero_le _, fun hall => ?_⟩
        have hfirst := hall 0 (by omega)
        rw [Nat.add_zero, hread] at hfirst
        cases hfirst
      | true =>
        have hnext : off + len ≤ fileSize := by omega
        obtain ⟨chunks, n, hloop, hflat, hle, hfull⟩ :=
          ih (k := k + 1) (update s (flashBytes flash off len)) hnext (by omega)
        refine ⟨flashBytes flash off len :: chunks, len + n, ?_, ?_, by omega, fun hall => ?_⟩
        · rw [if_pos rfl, hloop, foldl_cons]
        · rw [flatten_cons, hflat, flashBytes_append]
        · have hn := hfull fun j hj => by
            have hread := hall (j + 1) (by rw [Nat.add_mul, Nat.one_mul]; omega)
            rwa [Nat.add_right_comm]
          omega
    · rw [if_neg hmore]
      exact ⟨[], 0, rfl, hnone off, Nat.zero_le _, fun _ => by omega⟩

theorem readLoop_image {σ : Type} (update : σ → Bytes → σ) (flash : Nat → UInt8) (reads : Nat → Bool)
    (fileSize : Nat) (s : σ) :
    ∃ (chunks : List Bytes) (n : Nat), readLoop update flash reads fileSize fileSize 0 0 s = chunks.foldl update s ∧
      chunks.flatten = flashBytes flash 0 n ∧ n ≤ fileSize ∧ (Readable reads fileSize → n = fileSize) := by
  obtain ⟨chunks, n, hloop, hflat, hle, hfull⟩ :=
    readLoop_spec update flash reads fileSize (k := 0) s (Nat.zero_le fileSize) (Nat.le_refl _)
  refine ⟨chunks, n, hloop, hflat, hle, fun hall => hfull fun j hj => ?_⟩
  rw [Nat.zero_add] at hj ⊢
  exact hall j hj

variable {H : Hashes} {c c' : Context} {opts : Options}

variable {flash : Nat → UInt8} {reads : Nat → Bool} {acts : List Action}

/-- **What was read of the image** is hashed and compared as if it were all of it. -/
theorem hashCheck_prefix {f : OtaFile} (hlen : f.hashLen = hashLenGet f.hash) (h : hashCheck H flash reads f = true) :
    ∃ n ≤ f.fileSize, H.digest f.hash (flashBytes flash 0 n) = f.hashValue.take f.hashLen ∧
      (Readable reads f.fileSize → n = f.fileSize) := by
  unfold hashCheck at h
  split at h
  · next hmd5 =>
    obtain ⟨chunks, n, hloop, hflat, hle, hfull⟩ := readLoop_image H.md5Update flash reads f.fileSize H.md5Starts
    have hlen : f.hashLen = 16 := by rw [hlen, hmd5]; rfl
    refine ⟨n, hle, ?_, hfull⟩
    rw [← of_decide_eq_true h, md5Get, hloop, H.md5_correct, hflat, hlen, ← H.md5_length, take_length]
    exact if_pos hmd5
  · next hmd5 =>
    split at h
    · cases h
    · next hsha1 =>
      split at h
      · next hcrc =>
        obtain ⟨chunks, n, hloop, hflat, hle, hfull⟩ :=
          readLoop_image (fun crc buf => crc32 buf crc) flash reads f.fileSize 0
        have hlen : f.hashLen = 4 := by rw [hlen, hcrc]; rfl
        refine ⟨n, hle, ?_, hfull⟩
        rw [← of_decide_eq_true h, crc32Get, hloop, crc32_chunks, hflat, hlen, Hashes.digest, if_neg hmd5,
          if_neg hsha1]
        rfl
      · cases h

/-! ### Calls -/

/-- The events of the dispatcher, with what a verification reads and what an MCU answers. -/
inductive Call where
  | queryVer (msgId : UInt8) (data : Bytes)
  | request (msgId : UInt8) (data : Bytes) (answer : Int) (posted : Bool)
  | data (msgId : UInt8) (data : Bytes) (flushOk lastOk : Bool)
  | verify (msgId : UInt8) (flash : Nat → UInt8) (reads : Nat → Bool) (answer : Int)
  | timer
  | disconnected

/-- What `qm_ble_ota_verify_handle` finds. -/
def verdict (H : Hashes) (flash : Nat → UInt8) (reads : Nat → Bool) (answer : Int) (f : OtaFile) : Bool :=
  if f.otaType = typeMcu then answer = Reason.normal else hashCheck H flash reads f

def Call.event (H : Hashes) (c : Context) : Call → Event
  | .queryVer msgId bytes => .queryVer msgId bytes
  | .request msgId bytes answer posted => .request msgId bytes answer posted
  | .data msgId bytes flushOk lastOk => .data msgId bytes flushOk lastOk
  | .verify msgId flash reads answer => .verify msgId (verdict H flash reads answer c.otaFile)
  | .timer => .timer
  | .disconnected => .disconnected

def callMachine (opts : Options) (H : Hashes) : Machine Context Call Shown where
  step c call := (machine opts).step c (call.event H c)

def lastRequest (trace : List (Call × Shown)) : Option Bytes :=
  trace.foldl (fun last x =>
    match x.1 with
    | .request _ data _ _ => some data
    | _ => last) none

/-! ### The file of the context -/

/-- Short of a request, a step ends the session or leaves the file of one that is on. -/
theorem dispatch_file {e : Event} (he : ∀ msgId data answer posted, e ≠ .request msgId data answer posted)
    (h : dispatch opts c e = some (c', acts)) : c'.status = .off ∨ c.status ≠ .off ∧ c'.otaFile = c.otaFile := by
  have hsame (hstatus : c'.status = c.status) (hfile : c'.otaFile = c.otaFile) :
      c'.status = .off ∨ c.status ≠ .off ∧ c'.otaFile = c.otaFile := by
    by_cases hoff : c.status = .off
    · exact .inl (hstatus.trans hoff)
    · exact .inr ⟨hoff, hfile⟩
  rcases dispatch_cases h with ⟨_, _, _, _, rfl⟩ | ⟨msgId, data, flushOk, lastOk, rfl⟩ | ⟨rfl, -⟩ |
    ⟨-, ⟨hdata, rfl⟩ | ⟨count, rfl⟩⟩
  · exact absurd rfl (he _ _ _ _)
  · rcases dispatch_data_cases h with ⟨-, rfl, -⟩ | ⟨hon, ⟨-, rfl, -⟩ | ⟨-, taken, did, r, haccept, hcase⟩⟩
    · exact hsame rfl rfl
    · exact .inr ⟨(Context.taking_ne hon).1, rfl⟩
    · have hfile := acceptData_file haccept
      refine .inr ⟨(Context.taking_ne hon).1, ?_⟩
      rcases hcase with ⟨-, rfl, -⟩ | ⟨-, rfl, -⟩ <;> exact hfile
  · exact .inl rfl
  · exact .inr ⟨(Context.taking_ne (.inr hdata)).1, rfl⟩
  · exact hsame rfl rfl

/-- A request, taken or refused, starts from an empty file. -/
theorem dispatch_request_file {msgId : UInt8} {data : Bytes} {answer : Int} {posted : Bool}
    (h : dispatch opts c (.request msgId data answer posted) = some (c', acts)) :
    c'.status = .off ∨ c'.otaFile = (reqParse data {}).1 := by
  simp only [dispatch, Option.some.injEq, Prod.mk.injEq] at h
  obtain ⟨rfl, -⟩ := h
  unfold reqHandle
  split
  · exact .inl rfl
  · right
    dsimp only
    split <;> next hparse => exact (congrArg Prod.fst hparse).symm

/-- Outside of `off`, the file is what was parsed of the last request. -/
def FromRequest (trace : List (Call × Shown)) (c : Context) : Prop :=
  c.status ≠ .off → ∃ data, lastRequest trace = some data ∧ c.otaFile = (reqParse data {}).1

theorem callMachine_step {call : Call} {o : Shown} (h : (callMachine opts H).step c call = some (c', o)) :
    dispatch opts c (call.event H c) = some (c', o.acts) := (machine_step h).2

theorem lastRequest_snoc (trace : List (Call × Shown)) (call : Call) (o : Shown) :
    lastRequest (trace ++ [(call, o)]) =
      match call with
      | .request _ data _ _ => some data
      | _ => lastRequest trace := by
  rw [lastRequest, foldl_append]
  rfl

/-- **One step** keeps the file that of the last request. -/
theorem FromRequest.step {past : List (Call × Shown)} {call : Call} {o : Shown} (h : FromRequest past c)
    (hs : (callMachine opts H).step c call = some (c', o)) : FromRequest (past ++ [(call, o)]) c' := by
  have hdispatch := callMachine_step hs
  intro hon
  rw [lastRequest_snoc]
  have hkeep (he : ∀ msgId data answer posted, call.event H c ≠ .request msgId data answer posted) :
      ∃ data, lastRequest past = some data ∧ c'.otaFile = (reqParse data {}).1 := by
    obtain ⟨hbefore, hfile⟩ := (dispatch_file he hdispatch).resolve_left hon
    rw [hfile]
    exact h hbefore
  cases call with
  | request msgId bytes answer posted => exact ⟨bytes, rfl, (dispatch_request_file hdispatch).resolve_left hon⟩
  | queryVer | data | verify | timer | disconnected => exact hkeep fun _ _ _ _ => Event.noConfusion

/-! ### What a positive answer says -/

/-- The fields of a request that was parsed. -/
theorem reqParse_success {data : Bytes} {f f' : OtaFile} (h : reqParse data f = (f', .success)) :
    f'.hash = data.getD 4 0 ∧ f'.hashLen = hashLenGet f'.hash ∧
      f'.hashValue.take f'.hashLen = (data.drop 5).take f'.hashLen ∧
      f'.fileSize = read32 data (5 + f'.hashLen) := by
  unfold reqParse at h
  dsimp only at h
  repeat' split at h
  all_goals cases h
  next hroom _ =>
  refine ⟨rfl, rfl, ?_, rfl⟩
  have hlen : ((data.drop 5).take (hashLenGet (data.getD 4 0))).length = hashLenGet (data.getD 4 0) := by
    rw [length_take, length_drop]
    omega
  have htake := take_splice f.hashValue 0 ((data.drop 5).take (hashLenGet (data.getD 4 0))) (Nat.zero_le _)
  rw [hlen, Nat.zero_add, take_zero, nil_append] at htake
  exact htake

def saysValid (msgId : UInt8) (acts : List Action) : Prop :=
  .post msgId Cmd.otaVerify Com.noErr [] ∈ acts ∨ .otaEnd true ∈ acts

/-- Success comes from the verdict alone, in a session whose image is complete. -/
theorem verify_valid_iff {msgId : UInt8} {valid : Bool} (h : dispatch opts c (.verify msgId valid) = some (c', acts)) :
    saysValid msgId acts ↔ c.status = .fwVerify ∧ valid = true ∧
      (c.otaFile.otaType = typeMcu ∧ opts.mcuOta = true ∧ c.otaCb = true ∨ c.otaFile.otaType = typeBle) := by
  have hcode : Com.noErr ≠ Com.errVerify := by decide
  simp only [dispatch] at h
  split at h
  · next hstatus =>
    cases h
    exact iff_of_false (by simp [saysValid]) fun h => hstatus h.1
  · next hstatus =>
    cases h
    simp only [saysValid, not_not.mp hstatus, true_and]
    have htypes : typeBle ≠ typeMcu := by decide
    by_cases hmcu : c.otaFile.otaType = typeMcu ∧ opts.mcuOta = true ∧ c.otaCb = true
    · rw [if_pos hmcu]
      cases valid <;> simp [hmcu, hcode, htypes.symm]
    · rw [if_neg hmcu]
      by_cases hble : c.otaFile.otaType = typeBle
      · cases valid <;> simp [hble, hcode, htypes]
      · simp [hble, hmcu]

/-- A verification that is answered with success and has not seen the image: the callback of an MCU says so, or of an
image that was not read to its end the part that was read has the digest. -/
def Unfounded (opts : Options) (H : Hashes) (c : Context) (flash : Nat → UInt8) (reads : Nat → Bool) (answer : Int) :
    Prop :=
  c.status = .fwVerify ∧
    (c.otaFile.otaType = typeMcu ∧ opts.mcuOta = true ∧ c.otaCb = true ∧ answer = Reason.normal ∨
      c.otaFile.otaType = typeBle ∧ ¬ Readable reads c.otaFile.fileSize ∧ hashCheck H flash reads c.otaFile = true)

def Authentic (H : Hashes) (request : Bytes) (flash : Nat → UInt8) : Prop :=
  let hash := request.getD 4 0
  H.digest hash (flashBytes flash 0 (read32 request (5 + hashLenGet hash))) = (request.drop 5).take (hashLenGet hash)

theorem hashCheck_authentic {request : Bytes} (hparse : (reqParse request {}).2 = .success)
    (hreads : Readable reads (reqParse request {}).1.fileSize)
    (h : hashCheck H flash reads (reqParse request {}).1 = true) : Authentic H request flash := by
  obtain ⟨hhash, hlen, hvalue, hsize⟩ := reqParse_success (Prod.ext rfl hparse)
  obtain ⟨n, -, hdigest, hfull⟩ := hashCheck_prefix hlen h
  rw [hfull hreads, hvalue, hsize, hlen, hhash] at hdigest
  exact hdigest

/-- The image in the flash is the one of the last request, if that was accepted: exactly the bytes it announces are
there from the start on, with the digest it gives. -/
def Verified (H : Hashes) (trace : List (Call × Shown)) (flash : Nat → UInt8) : Prop :=
  ∃ request, lastRequest trace = some request ∧ ((reqParse request {}).2 = .success → Authentic H request flash)

/-- Hashes of which only CRC-32 is used. -/
def crcOnly : Hashes where
  Ctx := Unit
  md5Starts := ()
  md5Update _ _ := ()
  md5Finish _ := List.replicate 16 0
  md5 _ := List.replicate 16 0
  sha1 _ := []
  md5_correct _ := rfl
  md5_length _ := List.length_replicate

def fourBytes (i : Nat) : UInt8 := ([1, 2, 3, 4] : Bytes).getD i 0xFF

def fourByteSession (crc : Bytes) : List Call :=
  [.request 0 ([typeBle, 1, 0, 0, hashCrc32] ++ crc ++ [0, 0, 0, 4]) Reason.normal true, .data 0 [1, 2, 3, 4] true true]

end Qumios.Ble.Ota
