import BitcoinSpend.Proofs.Base58.Checked

namespace BitcoinSpend.Address

-- A text that names the owner of a key or the knower of a script by its hash.
def Names (text : String) (hash : FixedBytes 20) : Prop :=
  ∃ network, text = ofKeyHash network hash ∨ text = ofScriptHash network hash

-- The version bytes of the two kinds on the two networks.
def versions : List UInt8 :=
  [0x00, 0x6f, 0x05, 0xc4]

-- A text with the hash behind a version byte that no address has.
def Foreign (text : String) (hash : FixedBytes 20) : Prop :=
  ∃ version, version ∉ versions ∧ text = Base58.encodeChecked (version :: hash.bytes)

theorem mem_versions_iff {version : UInt8} :
    version ∈ versions ↔
      ∃ network : Network, version = network.keyVersion ∨ version = network.scriptVersion := by
  constructor
  · intro h
    simp only [versions, List.mem_cons, List.not_mem_nil, or_false] at h
    rcases h with rfl | rfl | rfl | rfl
    · exact ⟨.main, .inl rfl⟩
    · exact ⟨.test, .inl rfl⟩
    · exact ⟨.main, .inr rfl⟩
    · exact ⟨.test, .inr rfl⟩
  · rintro ⟨network, rfl | rfl⟩
    · cases network <;> decide
    · cases network <;> decide

theorem names_encodeChecked_iff {version : UInt8} {hash : FixedBytes 20} :
    Names (Base58.encodeChecked (version :: hash.bytes)) hash ↔ version ∈ versions := by
  rw [mem_versions_iff]
  simp only [Names, ofKeyHash, ofScriptHash, Base58.encodeChecked_inj, List.cons.injEq, and_true]

-- Twenty bytes behind any one byte are taken for the hash.
theorem hash_eq_ok_iff {text : String} {hash : FixedBytes 20} :
    Address.hash text = .ok hash ↔
      ∃ version, text = Base58.encodeChecked (version :: hash.bytes) := by
  constructor
  · intro h
    obtain ⟨payload, hpayload, h⟩ := bind_eq_ok_iff.mp h
    split_ifs at h with hlength
    cases h
    obtain ⟨version, rest, rfl⟩ := List.exists_cons_of_length_eq_add_one hlength
    exact ⟨version, Base58.decodeChecked_iff.mp hpayload⟩
  · rintro ⟨version, rfl⟩
    exact hash_encodeChecked version hash

-- The hash is read from its addresses, and just as well from texts that are none.
theorem hash_eq_ok_iff_names_or_foreign (text : String) (hash : FixedBytes 20) :
    (Address.hash text = .ok hash ↔ Names text hash ∨ Foreign text hash) ∧
      ¬ (Names text hash ∧ Foreign text hash) := by
  constructor
  · rw [hash_eq_ok_iff]
    constructor
    · rintro ⟨version, rfl⟩
      by_cases hversion : version ∈ versions
      · exact .inl (names_encodeChecked_iff.mpr hversion)
      · exact .inr ⟨version, hversion, rfl⟩
    · rintro (⟨network, rfl | rfl⟩ | ⟨version, -, rfl⟩)
      · exact ⟨network.keyVersion, rfl⟩
      · exact ⟨network.scriptVersion, rfl⟩
      · exact ⟨version, rfl⟩
  · rintro ⟨hnames, version, hversion, rfl⟩
    exact hversion (names_encodeChecked_iff.mp hnames)

-- The version byte 0x30 stands for no kind on no network.
theorem not_forall_hash_eq_ok_iff_names :
    ¬ ∀ (text : String) (hash : FixedBytes 20), Address.hash text = .ok hash ↔ Names text hash := by
  intro h
  let zeros : FixedBytes 20 := ⟨List.replicate 20 0, List.length_replicate⟩
  have hread : Address.hash (Base58.encodeChecked (0x30 :: zeros.bytes)) = .ok zeros :=
    hash_encodeChecked 0x30 zeros
  have hversion := names_encodeChecked_iff.mp ((h _ zeros).mp hread)
  exact absurd hversion (by decide)

end BitcoinSpend.Address
