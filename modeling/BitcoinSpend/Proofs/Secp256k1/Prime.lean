import BitcoinSpend.Proofs.Field.Lucas
import BitcoinSpend.Secp256k1.Basic

namespace BitcoinSpend.Secp256k1

def primeTable : List PrattEntry :=
  [⟨prime, 3, [2, 3, 7, 13441,
      205115282021455665897114700593932402728804164701536103180137503955397371]⟩,
    ⟨order, 7, [2, 2, 2, 2, 2, 2, 3, 149, 631, 107361793816595537, 174723607534414371449,
      341948486974166000522343609283189]⟩,
    ⟨205115282021455665897114700593932402728804164701536103180137503955397371, 10, [2, 3, 5, 29,
      29, 31, 7723, 132896956044521568488119, 255515944373312847190720520512484175977]⟩,
    ⟨255515944373312847190720520512484175977, 3, [2, 2, 2, 7, 7, 11, 1627, 2657, 4423, 41201,
      96557, 7240687, 107590001]⟩,
    ⟨341948486974166000522343609283189, 2, [2, 2, 3, 3, 3, 109, 29047611873442575647497758179]⟩,
    ⟨29047611873442575647497758179, 2, [2, 293, 305873, 545358713, 297159362677]⟩,
    ⟨132896956044521568488119, 6, [2, 3, 22149492674086928081353]⟩,
    ⟨22149492674086928081353, 5, [2, 2, 2, 3, 5323, 173378833005251801]⟩,
    ⟨174723607534414371449, 3, [2, 2, 2, 17, 59, 4051, 120233, 44706919]⟩,
    ⟨173378833005251801, 6, [2, 2, 2, 5, 5, 2621, 24809, 13331831]⟩,
    ⟨107361793816595537, 3, [2, 2, 2, 2, 16699, 85831, 4681609]⟩,
    ⟨297159362677, 2, [2, 2, 3, 3, 11, 461, 1627771]⟩,
    ⟨545358713, 5, [2, 2, 2, 41, 59, 28181]⟩,
    ⟨107590001, 3, [2, 2, 2, 2, 5, 5, 5, 5, 7, 29, 53]⟩,
    ⟨44706919, 6, [2, 3, 797, 9349]⟩,
    ⟨13331831, 13, [2, 5, 971, 1373]⟩,
    ⟨7240687, 3, [2, 3, 1206781]⟩,
    ⟨4681609, 23, [2, 2, 2, 3, 97, 2011]⟩,
    ⟨1627771, 3, [2, 3, 5, 29, 1871]⟩,
    ⟨1206781, 10, [2, 2, 3, 5, 20113]⟩,
    ⟨305873, 3, [2, 2, 2, 2, 7, 2731]⟩,
    ⟨120233, 3, [2, 2, 2, 7, 19, 113]⟩,
    ⟨96557, 2, [2, 2, 101, 239]⟩,
    ⟨85831, 3, [2, 3, 5, 2861]⟩,
    ⟨41201, 3, [2, 2, 2, 2, 5, 5, 103]⟩,
    ⟨28181, 2, [2, 2, 5, 1409]⟩,
    ⟨24809, 6, [2, 2, 2, 7, 443]⟩,
    ⟨20113, 10, [2, 2, 2, 2, 3, 419]⟩,
    ⟨16699, 3, [2, 3, 11, 11, 23]⟩,
    ⟨13441, 11, [2, 2, 2, 2, 2, 2, 2, 3, 5, 7]⟩]

theorem prattTable_primeTable : PrattTable primeTable := by
  decide +kernel

theorem prime_prime : Nat.Prime prime :=
  prime_of_prattTable prattTable_primeTable List.mem_cons_self

theorem prime_order : Nat.Prime order :=
  prime_of_prattTable prattTable_primeTable (List.mem_cons_of_mem _ List.mem_cons_self)

instance : Fact (Nat.Prime curve.prime) :=
  ⟨prime_prime⟩

instance : Fact (Nat.Prime order) :=
  ⟨prime_order⟩

end BitcoinSpend.Secp256k1
