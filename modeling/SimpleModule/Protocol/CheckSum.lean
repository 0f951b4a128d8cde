import SimpleModule.Protocol.Reload

/-!
# The check sum of all protocols

`get_ptos_checkid` hashes the check ids of all protocols of a manager into one number.  Two
processes compare it to find out whether they have loaded the same protocols.

The sum does not depend on which side a process is, on the functions that it has bound or on
the loads that have failed: two sides that agree on every id have the same one.  Failed loads
may leave different arrays behind, so this is for files that do not name the type `array`.

Conversely a change is not always seen.  `calc_hashnr` takes one byte after the other, and a
turn with an odd byte forgets the lowest bit of the number.  A turn with an even one forgets
nothing, so that a change of one byte in front of even ones only is always seen.
-/

namespace SimpleModule

open Octets Exits Runs

/-! ## The hash -/

/-- The variables `nr` and `nr2` of `calc_hashnr`, two numbers of 32 bits that wrap around. -/
structure HashState where
  nr : BitVec 32
  nr2 : BitVec 32

/-- What a byte is multiplied by. -/
def HashState.factor (state : HashState) : BitVec 32 := (state.nr &&& 63) + state.nr2

/-- One turn of the loop in `calc_hashnr`; characters are signed. -/
def HashState.step (state : HashState) (byte : Byte) : HashState where
  nr := state.nr ^^^ (state.factor * byte.toBitVec.signExtend 32 + state.nr <<< 8)
  nr2 := state.nr2 + 3

def calcHashnr (key : Bytes) : BitVec 32 := (key.foldl HashState.step ⟨1, 4⟩).nr

namespace HashState

theorem nr2_foldl (state : HashState) (key : Bytes) :
    (key.foldl step state).nr2 = state.nr2 + BitVec.ofNat 32 (3 * key.length) := by
  induction key generalizing state with
  | nil => simp
  | cons byte rest ih =>
      have turn : (state.step byte).nr2 = state.nr2 + BitVec.ofNat 32 3 := rfl
      rw [List.foldl_cons, ih, turn, List.length_cons, Nat.mul_succ, Nat.add_comm,
        BitVec.ofNat_add, BitVec.add_assoc]

/-- The factor of a byte is positive and small if it does not stand too far behind. -/
theorem factor_toNat (key : Bytes) (short : key.length ≤ 2 ^ 22) :
    0 < (key.foldl step ⟨1, 4⟩).factor.toNat ∧
      (key.foldl step ⟨1, 4⟩).factor.toNat < 2 ^ 24 := by
  have low : ((key.foldl step ⟨1, 4⟩).nr &&& 63).toNat ≤ 63 := by
    rw [BitVec.toNat_and]
    exact Nat.and_le_right
  have later : (key.foldl step ⟨1, 4⟩).nr2.toNat = 4 + 3 * key.length := by
    rw [nr2_foldl]
    simp only [BitVec.toNat_add, BitVec.toNat_ofNat, BitVec.ofNat_eq_ofNat]
    omega
  rw [factor, BitVec.toNat_add, later, Nat.mod_eq_of_lt (by omega)]
  omega

/-- Two bytes in one place make different numbers. -/
theorem step_injective {state : HashState} (positive : 0 < state.factor.toNat)
    (small : state.factor.toNat < 2 ^ 24) {first second : Byte}
    (same : (state.step first).nr = (state.step second).nr) : first = second := by
  have products : state.factor * first.toBitVec.signExtend 32 =
      state.factor * second.toBitVec.signExtend 32 := by
    simpa [step] using same
  generalize factored : (state.factor.toNat : ℤ) = factor at *
  have asInt : state.factor = BitVec.ofInt 32 factor := by
    rw [← factored, BitVec.ofInt_natCast, BitVec.ofNat_toNat, BitVec.setWidth_eq]
  rw [asInt, BitVec.signExtend, BitVec.signExtend, ← BitVec.ofInt_mul, ← BitVec.ofInt_mul]
    at products
  have congruent := congrArg BitVec.toNat products
  simp only [BitVec.toNat_ofInt] at congruent
  have divides : (2 ^ 32 : ℤ) ∣ factor * (first.toBitVec.toInt - second.toBitVec.toInt) := by
    rw [mul_sub]
    omega
  have bounded : |factor * (first.toBitVec.toInt - second.toBitVec.toInt)| < 2 ^ 32 := by
    have near : |first.toBitVec.toInt - second.toBitVec.toInt| ≤ 255 := by
      have firstLt : first.toBitVec.toInt < 2 ^ 7 := BitVec.toInt_lt
      have secondLt : second.toBitVec.toInt < 2 ^ 7 := BitVec.toInt_lt
      have leFirst : -2 ^ 7 ≤ first.toBitVec.toInt := BitVec.le_toInt first.toBitVec
      have leSecond : -2 ^ 7 ≤ second.toBitVec.toInt := BitVec.le_toInt second.toBitVec
      rw [abs_le]
      omega
    rw [abs_mul, abs_of_nonneg (by omega)]
    nlinarith
  have zero := Int.eq_zero_of_abs_lt_dvd divides bounded
  rcases mul_eq_zero.mp zero with none | none
  · omega
  · exact UInt8.toBitVec_inj.mp (BitVec.toInt_inj.mp (sub_eq_zero.mp none))

/-- What is added to the number in a turn, before it is cut to 32 bits. -/
def addend (nr nr2 byte : ℕ) : ℕ := ((nr &&& 63) + nr2) * byte + nr * 256

theorem toNat_step (state : HashState) (byte : Byte) :
    (state.step byte).nr.toNat = state.nr.toNat ^^^
      addend state.nr.toNat state.nr2.toNat (byte.toBitVec.signExtend 32).toNat % 2 ^ 32 := by
  simp only [step, factor, addend, BitVec.toNat_xor, BitVec.toNat_add, BitVec.toNat_mul,
    BitVec.toNat_and, BitVec.toNat_shiftLeft, Nat.shiftLeft_eq, Nat.add_mod, Nat.mul_mod,
    Nat.mod_mod]
  rfl

theorem even_signExtend {byte : Byte} (even : byte.toNat % 2 = 0) :
    (byte.toBitVec.signExtend 32).toNat % 2 = 0 := by
  have nat : byte.toBitVec.toNat % 2 = 0 := even
  rw [BitVec.signExtend, BitVec.toNat_ofInt, BitVec.toInt_eq_toNat_cond]
  split_ifs
  · omega
  · omega

/-- With an even byte, the low bits of the addend depend on fewer low bits of the number. -/
theorem addend_modEq {nr nr' byte count : ℕ} (nr2 : ℕ) (even : byte % 2 = 0)
    (low : nr ≡ nr' [MOD 2 ^ count]) :
    addend nr nr2 byte ≡ addend nr' nr2 byte [MOD 2 ^ (count + 1)] := by
  have masked : (nr &&& 63) + nr2 ≡ (nr' &&& 63) + nr2 [MOD 2 ^ count] := by
    apply Nat.ModEq.add_right
    rw [Nat.ModEq, Nat.and_mod_two_pow, Nat.and_mod_two_pow, low]
  have double {left right : ℕ} (same : left ≡ right [MOD 2 ^ count]) (half : ℕ) :
      left * (2 * half) ≡ right * (2 * half) [MOD 2 ^ (count + 1)] := by
    rw [← mul_assoc, ← mul_assoc, pow_succ]
    exact (same.mul_right' 2).mul_right half
  obtain ⟨half, rfl⟩ : ∃ half, byte = 2 * half := ⟨byte / 2, by omega⟩
  exact (double masked half).add (double low 128)

/-- A turn with an even byte can be undone. -/
theorem step_even {state other : HashState} (sameNr2 : state.nr2 = other.nr2) {byte : Byte}
    (even : byte.toNat % 2 = 0) (same : (state.step byte).nr = (other.step byte).nr) :
    state.nr = other.nr := by
  have numbers := congrArg BitVec.toNat same
  rw [toNat_step, toNat_step, sameNr2] at numbers
  -- one more bit of the two numbers is the same in each turn
  have low (count : ℕ) (within : count ≤ 32) :
      state.nr.toNat ≡ other.nr.toNat [MOD 2 ^ count] := by
    induction count with
    | zero => exact Nat.modEq_one
    | succ count ih =>
        have addends := addend_modEq other.nr2.toNat (even_signExtend even) (ih (by omega))
        have bits := congrArg (· % 2 ^ (count + 1)) numbers
        simp only [Nat.xor_mod_two_pow] at bits
        rw [Nat.mod_mod_of_dvd _ (pow_dvd_pow 2 within),
          Nat.mod_mod_of_dvd _ (pow_dvd_pow 2 within), addends] at bits
        exact Nat.xor_left_inj.mp bits
  apply BitVec.eq_of_toNat_eq
  have all := low 32 le_rfl
  rw [Nat.ModEq, Nat.mod_eq_of_lt state.nr.isLt, Nat.mod_eq_of_lt other.nr.isLt] at all
  exact all

theorem foldl_even {state other : HashState} (sameNr2 : state.nr2 = other.nr2) {key : Bytes}
    (even : ∀ byte ∈ key, byte.toNat % 2 = 0)
    (same : (key.foldl step state).nr = (key.foldl step other).nr) : state.nr = other.nr := by
  induction key generalizing state other with
  | nil => exact same
  | cons byte rest ih =>
      have nextNr2 : (state.step byte).nr2 = (other.step byte).nr2 := by
        simp only [step, sameNr2]
      have next := ih nextNr2 (fun other member => even other (List.mem_cons_of_mem byte member))
        same
      exact step_even sameNr2 (even byte List.mem_cons_self) next

end HashState

/-- A change of one byte in front of even ones changes the hash. -/
theorem calcHashnr_ne {front back : Bytes} {first second : Byte} (short : front.length ≤ 2 ^ 22)
    (even : ∀ byte ∈ back, byte.toNat % 2 = 0) (differ : first ≠ second) :
    calcHashnr (front ++ first :: back) ≠ calcHashnr (front ++ second :: back) := by
  intro same
  rw [calcHashnr, calcHashnr, List.foldl_append, List.foldl_append] at same
  rcases HashState.factor_toNat front short with ⟨positive, small⟩
  apply differ
  apply HashState.step_injective positive small
  exact HashState.foldl_even rfl even same

theorem calcHashnr_ne_names :
    calcHashnr (ofString "s_" ++ 98 :: ofString "dd") ≠
      calcHashnr (ofString "s_" ++ 99 :: ofString "dd") :=
  calcHashnr_ne (by decide) (by decide +kernel) (by decide)

-- an odd byte may hide a change in front of it
example : calcHashnr (ofString "s_fro") = calcHashnr (ofString "s_fqo") := by decide +kernel

/-! ## The check sum -/

namespace NetProtocol

def getCheckId (proto : NetProtocol) : BitVec 32 := calcHashnr proto.checkString

end NetProtocol

namespace ProtoManager

open NetProtocol

/-- The number that `get_ptos_checkid` pushes; the check ids are hashed as they lie in memory. -/
def getPtosCheckid (protos : List NetProtocol) : ℤ :=
  (calcHashnr (protos.flatMap fun proto => le 4 proto.getCheckId.toNat)).toInt

theorem Twins.map_checkString {client server : World} (twins : Twins client server) :
    client.protos.map checkString = server.protos.map checkString := by
  apply List.ext_getElem
  · rw [List.length_map, List.length_map, twins.length]
  · intro id onClient onServer
    rw [List.length_map] at onClient onServer
    rw [List.getElem_map, List.getElem_map]
    rcases twins.twin (List.getElem?_eq_getElem onClient) (List.getElem?_eq_getElem onServer) with
      ⟨-, pair | ⟨-, same⟩⟩
    · rw [checkString, checkString, pair.packFuncName, pair.args]
    · rw [same]

theorem getPtosCheckid_eq (protos : List NetProtocol) :
    getPtosCheckid protos = (calcHashnr ((protos.map checkString).flatMap fun text =>
      le 4 (calcHashnr text).toNat)).toInt := by
  rw [List.flatMap_map]
  rfl

/--
Two sides that make the same calls of `add_protocol` and `update_protocol`, each with the same
outcome on both and with a file that does not name the type `array`, have the same check sum in
every state.
-/
theorem checkSums_agree {clientSetup serverSetup : Setup} (isClient : clientSetup.curChar = .client)
    (isServer : serverSetup.curChar = .server)
    (sameNumerals : clientSetup.numerals = serverSetup.numerals) (args : List ArgObj)
    (clientGlobals serverGlobals : List (LuaKey × LuaValue)) {calls : List Call}
    (paired : StepsMeet (attemptBoth clientSetup serverSetup) (Paired clientSetup serverSetup)
      (.init args clientGlobals, .init args serverGlobals) calls) :
    StatesMeet (attemptBoth clientSetup serverSetup)
      (fun worlds => getPtosCheckid worlds.1.protos = getPtosCheckid worlds.2.protos)
      (.init args clientGlobals, .init args serverGlobals) calls := by
  have twins : StatesMeet (attemptBoth clientSetup serverSetup)
      (fun worlds => Twins worlds.1 worlds.2)
      (.init args clientGlobals, .init args serverGlobals) calls :=
    twins_of_paired isClient isServer sameNumerals args clientGlobals serverGlobals paired
  apply twins.imp
  intro worlds twins
  rw [getPtosCheckid_eq, getPtosCheckid_eq, twins.map_checkString]

theorem checkSums_agree_reloads :
    StatesMeet (attemptBoth (oneMaker .client) (oneMaker .server))
      (fun worlds => getPtosCheckid worlds.1.protos = getPtosCheckid worlds.2.protos)
      (.init initArgs (makerTable "c_foo"), .init initArgs (makerTable "s_bar")) reloads := by
  have sameNumerals : (oneMaker .client).numerals = (oneMaker .server).numerals := rfl
  exact checkSums_agree rfl rfl sameNumerals initArgs (makerTable "c_foo") (makerTable "s_bar")
    reloads_paired

end ProtoManager

end SimpleModule
