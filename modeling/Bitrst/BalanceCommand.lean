import Bitrst.MineCommand
import Bitrst.Support.RadixText
import Bitrst.Wallet

/-!
# Addresses and the balance command

`base58.rs`, `address.rs` and `cli/wallet/balance.rs`.  The text of an address
is made of a version byte, a public key hash and four bytes of their digest by
the `bs58` package, which enters as the parameter `Base58`.  A write that fails
is left out, as for the other commands.
-/

namespace Bitrst

open Support

/-! ## Checked texts -/

/-- What `bs58` does: every text that it reads is the one text of what it reads. -/
structure Base58 where
  encode : Bytes → String
  decode : String → Option Bytes
  decode_eq_some : ∀ text data, decode text = some data ↔ encode data = text

inductive Base58Error
  | invalidCharacter
  | invalidLength
  | invalidChecksum
  deriving DecidableEq

namespace Base58

variable [Crypto]

def checksum (data : Bytes) : Bytes := (sha256d data).toList.take 4

def encodeCheck (base58 : Base58) (version : UInt8) (payload : Bytes) : String :=
  let data := version :: payload
  base58.encode (data ++ checksum data)

def decodeCheck (base58 : Base58) (text : String) : Except Base58Error (UInt8 × Bytes) :=
  match base58.decode text with
  | none => .error .invalidCharacter
  | some data =>
      if data.length < 5 then .error .invalidLength
      else
        let body := data.take (data.length - 4)
        if checksum body ≠ data.drop (data.length - 4) then .error .invalidChecksum
        else .ok (body.headD 0, body.tail)

variable {base58 : Base58} {text : String} {version : UInt8} {payload : Bytes}

theorem length_checksum (data : Bytes) : (checksum data).length = 4 := by
  rw [checksum, List.length_take, List.Vector.toList_length]
  rfl

theorem decodeCheck_encodeCheck (base58 : Base58) (version : UInt8) (payload : Bytes) :
    base58.decodeCheck (base58.encodeCheck version payload) = .ok (version, payload) := by
  generalize hdata : version :: payload = data
  have hread : base58.decode (base58.encodeCheck version payload) = some (data ++ checksum data) :=
    (base58.decode_eq_some _ _).mpr (by rw [← hdata]; rfl)
  have hlength : (data ++ checksum data).length - 4 = data.length := by
    rw [List.length_append, length_checksum, Nat.add_sub_cancel]
  have hlong : ¬ (data ++ checksum data).length < 5 := by
    rw [List.length_append, length_checksum, ← hdata, List.length_cons]
    omega
  simp only [decodeCheck, hread]
  rw [if_neg hlong, hlength, List.take_left, List.drop_left, if_neg (not_not.mpr rfl), ← hdata]
  rfl

/-- What is accepted is well formed. -/
theorem decodeCheck_eq_ok : base58.decodeCheck text = .ok (version, payload) ↔
    text = base58.encodeCheck version payload := by
  constructor
  · intro h
    unfold decodeCheck at h
    split at h
    · cases h
    · rename_i data hdata
      dsimp only at h
      split at h
      · cases h
      · rename_i hlong
        split at h
        · cases h
        · rename_i hsum
          obtain ⟨hversion, hpayload⟩ := Prod.mk.inj (Except.ok.inj h)
          generalize hbody : data.take (data.length - 4) = body at hsum hversion hpayload
          have hcons : version :: payload = body := by
            cases body with
            | nil =>
                have hempty := congrArg List.length hbody
                rw [List.length_take, List.length_nil] at hempty
                omega
            | cons first rest =>
                rw [← hversion, ← hpayload]
                rfl
          have hsplit : data = body ++ checksum body := by
            rw [not_not.mp hsum, ← hbody, List.take_append_drop]
          rw [encodeCheck, hcons, ← hsplit]
          exact ((base58.decode_eq_some _ _).mp hdata).symm
  · rintro rfl
    exact decodeCheck_encodeCheck base58 version payload

theorem encodeCheck_injective {other : UInt8} {rest : Bytes}
    (h : base58.encodeCheck version payload = base58.encodeCheck other rest) :
    version = other ∧ payload = rest := by
  have hread := decodeCheck_encodeCheck base58 version payload
  rw [h, decodeCheck_encodeCheck] at hread
  obtain ⟨rfl, rfl⟩ := Prod.mk.inj (Except.ok.inj hread)
  exact ⟨rfl, rfl⟩

end Base58

/-! ## Addresses -/

inductive WalletNetwork
  | mainnet
  | testnet
  deriving DecidableEq

def WalletNetwork.p2pkhVersion : WalletNetwork → UInt8
  | mainnet => 0x00
  | testnet => 0x6f

theorem WalletNetwork.p2pkhVersion_injective : Function.Injective p2pkhVersion := by
  intro network other h
  cases network <;> cases other <;> first | rfl | exact absurd h (by decide)

structure Address where
  network : WalletNetwork
  pubkeyHash : Hash160
  encoded : String
  deriving DecidableEq

def Address.p2pkh [Crypto] (base58 : Base58) (pubkeyHash : Hash160) (network : WalletNetwork) :
    Address :=
  ⟨network, pubkeyHash, base58.encodeCheck network.p2pkhVersion pubkeyHash.toList⟩

inductive NetworkArg
  | mainnet
  | testnet
  deriving DecidableEq

namespace NetworkArg

def walletNetwork : NetworkArg → WalletNetwork
  | mainnet => .mainnet
  | testnet => .testnet

def label : NetworkArg → String
  | mainnet => "mainnet"
  | testnet => "testnet"

def p2pkhVersion : NetworkArg → UInt8
  | mainnet => 0x00
  | testnet => 0x6f

/-- The version that is asked for is the one that is written. -/
theorem walletNetwork_p2pkhVersion (network : NetworkArg) :
    network.walletNetwork.p2pkhVersion = network.p2pkhVersion := by
  cases network <;> rfl

end NetworkArg

/-- The errors of the command that are not those of commands that make chains. -/
inductive BalanceError
  | invalidAddress
  | addressNetworkMismatch (expected : String)
  | wallet (e : WalletError)
  | cli (e : CliError)
  deriving DecidableEq

structure BalanceArgs where
  address : String
  networkTime : Option UInt32 := none

namespace BalanceCommand

variable [Crypto]

def parseAddress (base58 : Base58) (address : String) (network : NetworkArg) :
    Except BalanceError Address :=
  match base58.decodeCheck address with
  | .error _ => .error .invalidAddress
  | .ok (version, payload) =>
      if version ≠ network.p2pkhVersion then .error (.addressNetworkMismatch network.label)
      else if hlength : payload.length = 20 then
        .ok (.p2pkh base58 ⟨payload, hlength⟩ network.walletNetwork)
      else .error .invalidAddress

/-- The lines that the command writes. -/
def run [Features] (base58 : Base58) (network : NetworkArg) (args : BalanceArgs)
    (clock : Option ℕ) : Except BalanceError (List String) :=
  match parseAddress base58 args.address network with
  | .error e => .error e
  | .ok address =>
      match resolveNetworkTime args.networkTime clock with
      | .error e => .error (.cli e)
      | .ok networkTime =>
          match ephemeralChain networkTime defaultBits with
          | .error e => .error (.cli e)
          | .ok chain =>
              match chain.takeEvents with
              | (.error e, _) => .error (.cli (.eventCursor e))
              | (.ok events, chain) =>
                  match (Wallet.new.watchAddress address.pubkeyHash).applyEvents chain events with
                  | (.error e, _) => .error (.wallet e)
                  | (.ok (), wallet) =>
                      .ok ["address: " ++ address.encoded, "network: " ++ network.label,
                        "balance_satoshis: " ++ toString wallet.balance.toNat, ephemeralNotice]

variable {base58 : Base58} {text : String} {network : NetworkArg} {address : Address}

/-- The text is that of an address. -/
def Addresses (base58 : Base58) (network : NetworkArg) (text : String) : Prop :=
  ∃ pubkeyHash, text = (Address.p2pkh base58 pubkeyHash network.walletNetwork).encoded

/-- The text is a checked one with another version. -/
def Foreign (base58 : Base58) (network : NetworkArg) (text : String) : Prop :=
  ∃ version payload, version ≠ network.p2pkhVersion ∧ text = base58.encodeCheck version payload

theorem Addresses.not_foreign (h : Addresses base58 network text) :
    ¬ Foreign base58 network text := by
  rintro ⟨version, payload, hversion, rfl⟩
  obtain ⟨pubkeyHash, heq⟩ := h
  have hsame := (Base58.encodeCheck_injective heq).1
  exact hversion (hsame.trans network.walletNetwork_p2pkhVersion)

/-- The three ways to read an address. -/
theorem parseAddress_cases (base58 : Base58) (text : String) (network : NetworkArg) :
    (∃ address, parseAddress base58 text network = .ok address ∧ address.encoded = text ∧
      Addresses base58 network text) ∨
    (parseAddress base58 text network = .error (.addressNetworkMismatch network.label) ∧
      Foreign base58 network text) ∨
    (parseAddress base58 text network = .error .invalidAddress ∧
      ¬ Addresses base58 network text ∧ ¬ Foreign base58 network text) := by
  unfold parseAddress
  cases hread : base58.decodeCheck text with
  | error e =>
      have hunread (version : UInt8) (payload : Bytes) :
          text ≠ base58.encodeCheck version payload := by
        intro heq
        rw [Base58.decodeCheck_eq_ok.mpr heq] at hread
        cases hread
      refine .inr (.inr ⟨rfl, ?_, ?_⟩)
      · rintro ⟨pubkeyHash, heq⟩
        exact hunread _ _ heq
      · rintro ⟨version, payload, -, heq⟩
        exact hunread _ _ heq
  | ok found =>
      obtain ⟨version, payload⟩ := found
      have htext := Base58.decodeCheck_eq_ok.mp hread
      dsimp only
      by_cases hversion : version = network.p2pkhVersion
      · rw [if_neg (not_not.mpr hversion)]
        rw [hversion, ← network.walletNetwork_p2pkhVersion] at htext
        by_cases hlength : payload.length = 20
        · rw [dif_pos hlength]
          exact .inl ⟨_, rfl, htext.symm, ⟨payload, hlength⟩, htext⟩
        · rw [dif_neg hlength]
          refine .inr (.inr ⟨rfl, ?_, ?_⟩)
          · rintro ⟨pubkeyHash, heq⟩
            have hpayload := (Base58.encodeCheck_injective (htext.symm.trans heq)).2
            exact hlength (hpayload ▸ pubkeyHash.toList_length)
          · rintro ⟨other, rest, hother, heq⟩
            have hsame := (Base58.encodeCheck_injective (htext.symm.trans heq)).1
            exact hother (hsame.symm.trans network.walletNetwork_p2pkhVersion)
      · rw [if_pos hversion]
        exact .inr (.inl ⟨rfl, version, payload, hversion, htext⟩)

variable [Features]

/-- The genesis block is no news when the command asks for events. -/
theorem ephemeralChain_takeEvents {networkTime bits : UInt32} {chain : Chain}
    (h : ephemeralChain networkTime bits = .ok chain) :
    ∃ next, chain.takeEvents = (.ok [], next) := by
  rcases MineCommand.ephemeralChain_cases { bits := bits } 0 networkTime with
    ⟨e, herror, -⟩ | ⟨genesis, grown, hgrown, hchain⟩
  · cases herror.symm.trans h
  · obtain rfl : grown = chain := Except.ok.inj (hgrown.symm.trans h)
    have haligned := (Chain.Reachable.journaled hchain.reachable).events
    have hcases := haligned.takeEvents_cases hchain.taken.le
    have hserved : ¬ grown.eventJournal.walletHighWater < grown.eventJournal.evicted := by
      rw [hchain.taken, ChainEventJournal.evicted]
      omega
    rw [if_neg hserved, hchain.taken, List.drop_length] at hcases
    exact ⟨_, by rw [Chain.takeEvents, hcases]⟩

omit [Crypto] [Features] in
theorem watchAddress_balance (pubkeyHash : Hash160) :
    (Wallet.new.watchAddress pubkeyHash).balance = 0 := rfl

/-- The chain that the command makes for itself. -/
def opens (args : BalanceArgs) (clock : Option ℕ) : Except CliError Chain :=
  match resolveNetworkTime args.networkTime clock with
  | .error e => .error e
  | .ok networkTime => ephemeralChain networkTime defaultBits

theorem run_of_fault {args : BalanceArgs} {clock : Option ℕ} {e : CliError}
    (h : parseAddress base58 args.address network = .ok address)
    (hopens : opens args clock = .error e) : run base58 network args clock = .error (.cli e) := by
  unfold opens at hopens
  simp only [run, h]
  split at hopens
  · obtain rfl := Except.error.inj hopens
    rfl
  · simp only [hopens]

theorem run_of_opens {args : BalanceArgs} {clock : Option ℕ} {chain : Chain}
    (h : parseAddress base58 args.address network = .ok address)
    (hopens : opens args clock = .ok chain) :
    run base58 network args clock =
      .ok ["address: " ++ address.encoded, "network: " ++ network.label,
        "balance_satoshis: 0", ephemeralNotice] := by
  unfold opens at hopens
  simp only [run, h]
  split at hopens
  · cases hopens
  · obtain ⟨next, htake⟩ := ephemeralChain_takeEvents hopens
    simp only [hopens, htake, Wallet.applyEvents, watchAddress_balance]
    rfl

/-- The four ways in which the command ends. -/
theorem run_cases (base58 : Base58) (network : NetworkArg) (args : BalanceArgs)
    (clock : Option ℕ) :
    (∃ chain, opens args clock = .ok chain ∧ Addresses base58 network args.address ∧
      run base58 network args clock =
        .ok ["address: " ++ args.address, "network: " ++ network.label,
          "balance_satoshis: 0", ephemeralNotice]) ∨
    (∃ fault, opens args clock = .error fault ∧ Addresses base58 network args.address ∧
      run base58 network args clock = .error (.cli fault)) ∨
    (Foreign base58 network args.address ∧
      run base58 network args clock = .error (.addressNetworkMismatch network.label)) ∨
    (¬ Addresses base58 network args.address ∧ ¬ Foreign base58 network args.address ∧
      run base58 network args clock = .error .invalidAddress) := by
  rcases parseAddress_cases base58 args.address network with
    ⟨address, hparse, htext, haddress⟩ | ⟨hparse, hforeign⟩ | ⟨hparse, haddress, hforeign⟩
  · cases hopens : opens args clock with
    | ok chain =>
        have hrun := run_of_opens hparse hopens
        rw [htext] at hrun
        exact .inl ⟨chain, rfl, haddress, hrun⟩
    | error fault => exact .inr (.inl ⟨fault, rfl, haddress, run_of_fault hparse hopens⟩)
  · exact .inr (.inr (.inl ⟨hforeign, by simp only [run, hparse]⟩))
  · exact .inr (.inr (.inr ⟨haddress, hforeign, by simp only [run, hparse]⟩))

/-- The command takes the addresses of its network, in the text that is written for them, tells
those of the other network apart, and has no balance but zero to show. -/
theorem balance_run (base58 : Base58) (network : NetworkArg) (args : BalanceArgs)
    (clock : Option ℕ) :
    (∀ lines, run base58 network args clock = .ok lines ↔
      Addresses base58 network args.address ∧ (∃ chain, opens args clock = .ok chain) ∧
        lines = ["address: " ++ args.address, "network: " ++ network.label,
          "balance_satoshis: 0", ephemeralNotice]) ∧
    (∀ e, run base58 network args clock = .error e ↔
      (e = .addressNetworkMismatch network.label ∧ Foreign base58 network args.address) ∨
      (e = .invalidAddress ∧ ¬ Addresses base58 network args.address ∧
        ¬ Foreign base58 network args.address) ∨
      ∃ fault, e = .cli fault ∧ Addresses base58 network args.address ∧
        opens args clock = .error fault) ∧
    ∀ pubkeyHash written, args.address = (Address.p2pkh base58 pubkeyHash written).encoded →
      (Foreign base58 network args.address ↔ written ≠ network.walletNetwork) := by
  refine ⟨fun lines ↦ ?_, fun e ↦ ?_, fun pubkeyHash written haddress ↦ ?_⟩
  · rcases run_cases base58 network args clock with ⟨chain, hopens, haddress, hrun⟩ |
      ⟨fault, hopens, haddress, hrun⟩ | ⟨hforeign, hrun⟩ | ⟨haddress, hforeign, hrun⟩ <;> rw [hrun]
    · constructor
      · exact fun h ↦ ⟨haddress, ⟨chain, hopens⟩, (Except.ok.inj h).symm⟩
      · rintro ⟨-, -, rfl⟩
        rfl
    · apply iff_of_false (fun h ↦ by cases h)
      rintro ⟨-, ⟨chain, hchain⟩, -⟩
      cases hopens.symm.trans hchain
    · exact iff_of_false (fun h ↦ by cases h) fun h ↦ h.1.not_foreign hforeign
    · exact iff_of_false (fun h ↦ by cases h) fun h ↦ haddress h.1
  · rcases run_cases base58 network args clock with ⟨chain, hopens, haddress, hrun⟩ |
      ⟨fault, hopens, haddress, hrun⟩ | ⟨hforeign, hrun⟩ | ⟨haddress, hforeign, hrun⟩ <;> rw [hrun]
    · apply iff_of_false (fun h ↦ by cases h)
      rintro (⟨-, hforeign⟩ | ⟨-, hnot, -⟩ | ⟨fault, -, -, hfault⟩)
      · exact haddress.not_foreign hforeign
      · exact hnot haddress
      · cases hopens.symm.trans hfault
    · constructor
      · exact fun h ↦ .inr (.inr ⟨fault, (Except.error.inj h).symm, haddress, hopens⟩)
      · rintro (⟨-, hforeign⟩ | ⟨-, hnot, -⟩ | ⟨other, rfl, -, hother⟩)
        · exact (haddress.not_foreign hforeign).elim
        · exact (hnot haddress).elim
        · rw [Except.error.inj (hopens.symm.trans hother)]
    · constructor
      · exact fun h ↦ .inl ⟨(Except.error.inj h).symm, hforeign⟩
      · rintro (⟨rfl, -⟩ | ⟨-, -, hnot⟩ | ⟨fault, -, haddress, -⟩)
        · rfl
        · exact (hnot hforeign).elim
        · exact (haddress.not_foreign hforeign).elim
    · constructor
      · exact fun h ↦ .inr (.inl ⟨(Except.error.inj h).symm, haddress, hforeign⟩)
      · rintro (⟨-, hother⟩ | ⟨rfl, -, -⟩ | ⟨fault, -, hother, -⟩)
        · exact (hforeign hother).elim
        · rfl
        · exact (haddress hother).elim
  · constructor
    · rintro ⟨version, payload, hversion, heq⟩ rfl
      have hsame := (Base58.encodeCheck_injective (haddress.symm.trans heq)).1
      exact hversion (hsame.symm.trans network.walletNetwork_p2pkhVersion)
    · intro hother
      refine ⟨written.p2pkhVersion, pubkeyHash.toList, fun heq ↦ hother ?_, haddress⟩
      exact WalletNetwork.p2pkhVersion_injective
        (heq.trans network.walletNetwork_p2pkhVersion.symm)

end BalanceCommand

end Bitrst

/-! ## The alphabet of the package -/

namespace Bitrst.Sample

open Support

def alphabet : List Char := "123456789ABCDEFGHJKLMNPQRSTUVWXYZabcdefghijkmnopqrstuvwxyz".toList

theorem letter_of_digit {digit : ℕ} (h : digit < 58) :
    alphabet.getD digit '1' ∈ alphabet ∧ alphabet.idxOf (alphabet.getD digit '1') = digit := by
  have hall : ∀ digit < 58, alphabet.getD digit '1' ∈ alphabet ∧
      alphabet.idxOf (alphabet.getD digit '1') = digit := by
    decide +kernel
  exact hall digit h

theorem digit_of_letter {letter : Char} (h : letter ∈ alphabet) :
    alphabet.idxOf letter < 58 ∧ alphabet.getD (alphabet.idxOf letter) '1' = letter := by
  have hlt := List.idxOf_lt_length_of_mem h
  refine ⟨hlt, ?_⟩
  rw [List.getD_eq_getElem?_getD, List.getElem?_eq_getElem hlt, Option.getD_some,
    List.getElem_idxOf]

theorem map_toNat_map_ofNat {digits : List ℕ} (h : ∀ digit ∈ digits, digit < 256) :
    (digits.map UInt8.ofNat).map UInt8.toNat = digits := by
  rw [List.map_map]
  refine (List.map_congr_left fun digit hdigit ↦ ?_).trans (List.map_id _)
  exact UInt8.toNat_ofNat_of_lt (h digit hdigit)

/-- Zero bytes in front are ones in front of the text, and the bytes behind them are one number. -/
def encodeText (data : Bytes) : String :=
  String.ofList ((changeBase 256 58 (data.map UInt8.toNat)).map fun digit ↦ alphabet.getD digit '1')

def decodeText (text : String) : Option Bytes :=
  if text.toList.all (alphabet.contains ·) then
    some ((changeBase 58 256 (text.toList.map fun letter ↦ alphabet.idxOf letter)).map UInt8.ofNat)
  else none

theorem decodeText_eq_some (text : String) (data : Bytes) :
    decodeText text = some data ↔ encodeText data = text := by
  unfold decodeText encodeText
  constructor
  · intro h
    split at h
    · rename_i hall
      obtain rfl := Option.some.inj h
      have hletters (letter : Char) (hletter : letter ∈ text.toList) : letter ∈ alphabet :=
        List.contains_iff_mem.mp (List.all_eq_true.mp hall letter hletter)
      have hdigits (digit : ℕ)
          (hdigit : digit ∈ text.toList.map fun letter ↦ alphabet.idxOf letter) :
          digit < 58 := by
        obtain ⟨letter, hletter, rfl⟩ := List.mem_map.mp hdigit
        exact (digit_of_letter (hletters letter hletter)).1
      have hback : (text.toList.map fun letter ↦ alphabet.idxOf letter).map
          (fun digit ↦ alphabet.getD digit '1') = text.toList := by
        rw [List.map_map]
        refine (List.map_congr_left fun letter hletter ↦ ?_).trans (List.map_id _)
        exact (digit_of_letter (hletters letter hletter)).2
      rw [map_toNat_map_ofNat fun digit ↦ changeBase_lt (by decide),
        changeBase_changeBase (by decide) hdigits, hback, String.ofList_toList]
    · cases h
  · rintro rfl
    have hdigits (digit : ℕ) (hdigit : digit ∈ changeBase 256 58 (data.map UInt8.toNat)) :
        digit < 58 := changeBase_lt (by decide) hdigit
    have hbytes (digit : ℕ) (hdigit : digit ∈ data.map UInt8.toNat) : digit < 256 := by
      obtain ⟨byte, -, rfl⟩ := List.mem_map.mp hdigit
      exact byte.toNat_lt
    have hback : ((changeBase 256 58 (data.map UInt8.toNat)).map
        fun digit ↦ alphabet.getD digit '1').map (fun letter ↦ alphabet.idxOf letter) =
          changeBase 256 58 (data.map UInt8.toNat) := by
      rw [List.map_map]
      refine (List.map_congr_left fun digit hdigit ↦ ?_).trans (List.map_id _)
      exact (letter_of_digit (hdigits digit hdigit)).2
    have hdata : (data.map UInt8.toNat).map UInt8.ofNat = data := by
      rw [List.map_map]
      refine (List.map_congr_left fun byte _ ↦ ?_).trans (List.map_id _)
      exact UInt8.ofNat_toNat
    rw [String.toList_ofList, hback, changeBase_changeBase (by decide) hbytes, hdata, if_pos]
    refine List.all_eq_true.mpr fun letter hletter ↦ List.contains_iff_mem.mpr ?_
    obtain ⟨digit, hdigit, rfl⟩ := List.mem_map.mp hletter
    exact (letter_of_digit (hdigits digit hdigit)).1

def base58 : Base58 := ⟨encodeText, decodeText, decodeText_eq_some⟩

example : base58.encode [0, 0, 0x61] = "112g" := by decide +kernel

/-- An address of the test network is not taken for one of the main network. -/
theorem testnet_foreign : BalanceCommand.Foreign base58 .mainnet
    (Address.p2pkh base58 publicKeyHash .testnet).encoded :=
  ((BalanceCommand.balance_run base58 .mainnet
    ⟨(Address.p2pkh base58 publicKeyHash .testnet).encoded, none⟩ none).2.2
      publicKeyHash .testnet rfl).mpr (by decide)

end Bitrst.Sample
