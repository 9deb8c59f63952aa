import MfskCore.Fec.Bp
import MfskCore.Library.Parity
import Mathlib.Data.List.GetD
import Mathlib.Data.Nat.Bitwise

/-! The encoder and the parity tables of each code describe the same code, so what belief propagation
accepts is a codeword. Each check is a combination of the generator's equations, read off its own
parity positions, and each equation of the generator is a combination of checks; both facts are
computed on the tables once. -/
namespace MfskCore.Fec
open Library Rust

/-- A word of `n` bits. -/
def IsBits (n : Nat) (c : List UInt8) : Prop := c.length = n ∧ ∀ b ∈ c, b < 2

/-- A byte as an element of the field. -/
def bitCast (b : UInt8) : ZMod 2 := (b.toNat : ZMod 2)

/-- The word as the values of the positions of a mask, the last bit at position zero. -/
def bitValue (N : Nat) (cw : List UInt8) (b : Nat) : ZMod 2 := bitCast (cw.getD (N - 1 - b) 0)

namespace LdpcParams

/-- The equation of each check. -/
def checkMasks (P : LdpcParams) : List Nat :=
  List.zipWith (fun row w => (row.take w).foldl (fun m k => m ^^^ 2^(P.N - 1 - k)) 0) P.NM P.NRW

/-- The equation of each parity bit of the encoder. -/
def genMasks (P : LdpcParams) : List Nat := P.GEN_PARITY.mapIdx fun j g => (g <<< P.M) ^^^ 2^(P.M - 1 - j)

/-- The tables have the sizes of the code, and the two systems of equations imply each other. -/
structure Consistent (P : LdpcParams) : Prop where
  size : P.N = P.K + P.M
  checks : P.NM.length = P.M
  weights : P.NRW.length = P.M
  parities : P.GEN_PARITY.length = P.M
  rows : ∀ r ∈ P.NM.zip P.NRW, r.2 ≤ r.1.length ∧ ∀ k ∈ r.1.take r.2, k < P.N
  checks_combine : ∃ sels : List Nat, P.checkMasks = sels.map (xorSelect P.genMasks.reverse)
  parities_combine : ∃ sels : List Nat, P.genMasks = sels.map (xorSelect P.checkMasks)

end LdpcParams

section Tables

private def combination_174_91 : List Nat :=
  [0x5d308f6cb56570f57b913, 0x150642ac074f8f830ac5e, 0x1954a6fcfd5ad558dcae0, 0x35f5e531105c9fc67b3ad,
   0x3ebfce94eaeb506f18303, 0x75ddb24bc8c6a14719877, 0x7743f78fa15480d428595, 0x1f43cdecbdef78717b302,
   0x185495ccbb27f23afeaed, 0x3300c499c525e6203f584, 0x1e2069f889f93866249c9, 0x7c30e9f0dbc3797425553,
   0x587cf923874308785303e, 0x74397b46bd3c7b88b8c7e, 0x796ab3a3818a82e9daafc, 0x7b09e43e119984bea25a4,
   0x344a24e31de8fe4e1b526, 0x5942d07c85f1d58bcc06b, 0x16d2e3b3164897dd7a246, 0x33e0b6151c5bfb2eb0a1e,
   0x74b09daed6e43531c4ea0, 0x79b0a9dc544466362fbad, 0x72fa8279aef3a99d4cb0b, 0x503976633de3ff8a22fe0,
   0x1f9fa808844d59ee46f42, 0x7741cc9be5e26515c65c4, 0x7099d5e43ee1afca3c453, 0x7585a13130469ed84aac4,
   0x7f8eb8971c8c710478b2f, 0x17e7df2cf0ea3c35b4622, 0x79f2b54be8528c58ae902, 0x35f5e511105c9fc67b3ad,
   0x3cf874a7f4a7f31aa4bc4, 0x5fa50555de19859ef858d, 0x635d71f2aabe76845ce49, 0x7adbf704a2d4f5c2bf0f1,
   0x3f01d17b01f9920ffa1ad, 0x1d4546f8ff5a95d0d4bc4, 0x18d548705c84418062fe0, 0x5508c3cd353cd1e16601a,
   0x7d01d56f3d61d29cab137, 0x503976637de3ff8a22fe0, 0x1dcca0149482dbe9a891a, 0x3942e4795910bc68bc126,
   0x5023401a350bc11b5ed2b, 0x159f5bc1ec4945eae8f91, 0x1680c3b96278d7c34561e, 0x5a7cf923874308785303e,
   0x599b141e969992acaf50f, 0x72fb5c4448550a67def26, 0x5f53f8f1257676a20b64b, 0xb4a2ba5fab7cfa9630a6,
   0x51c74d50ea7b11276e97, 0x2a867b5a29b0a1e51eb35, 0x453f34cf3aac7009283bc, 0x3f11d17b01f9920ffa1ad,
   0x2bb98c38eda4dfec12f4d, 0x36fccac012fc4a3cc6489, 0x7c03e73e1f55aabca5562, 0x60a613b715085900723e6,
   0x5023401a340bc11b5ed2b, 0x638f41f85f8e209a63a11, 0xc4a13b1b0cd046a8a071, 0x6a1912be34c543ee9c1b7,
   0x2bd58ce999a5a7a05da64, 0x263579d9013065770f58, 0x697c3dba4266ee586c7ba, 0x4c9f56b291d61d2fa5951,
   0x46b178a755bdf429d5a00, 0x4977e6e6c8511043827cb, 0x4acc2330c93f3348e39da, 0x47e3512b030e519215f7c,
   0xa4222e09c355a48834a2, 0x4bb04cd5d71da73e3ef0d, 0x1353c9fe6a2abe88e464, 0x4e0328e2bcf2f97d7a4e2,
   0x6c6dee8a061bc9b246693, 0x462383a3567316d81bb35, 0x2615ac898a1de3a8d7e20, 0x41cf81d22dae609651fe2,
   0x7b50ea7175477678035e4, 0x62421883888eaaedd0235, 0x4ea50f40751be9be78649]

private def combination_240_101 : List Nat :=
  [0x503ec7a4ae7276f1e43e392eec352803f7, 0x6540d0a34bf32854d12c2ea76ed591c653e,
   0x73a9b4f4643be563da1a8cf87487182b5cb, 0x3189d3bc7311535633a55e28dc196d265a3,
   0x7dd6c7b33bfee23f984f6900e561ab3e026, 0x28f3501d5e81f8e3ed7ad1c1df79569aab,
   0x7e4005a2daaebc23a2c2faf65ebfc10f6ae, 0x321ab981901535f781f70c0fb058da4e0a,
   0x450a22b1d1e9e0af86a507e8c93c9db0fee, 0x41f05a2ec9d9354b0ac8c94f6908ee956a9,
   0x7b72b7fdd950449979e13ce6aabbf4f301e, 0x4c0b6670116fcd3a13056e294ab1a431f80,
   0x4e4219f6ee56e2af1515865215d55ae78b6, 0x433f329af04edb5cabec77c0dc11c101bb0,
   0x2470073329608064b03becb757a394cc102, 0x1183a0085c68a2f0fc99eef66a109a96984,
   0x440dcd33d2354ac07f5ee042301c5f26155, 0x561e0de961335acd5be74c2862faf5d6e06,
   0x493c1b89310dc0f347134b7ba67e5a3a161, 0x191b0f93b28163d9ba4b33032e2b1db630e,
   0x41f052896dfcc9ebf2e555cde0a2d5447fe, 0x18acc78140d769d5928297a5cfb55b050bf,
   0x5ac8bbfa16bd534e3fe3d764dc4cad2631a, 0x531041627dee57449a4bcf50e8fdb301cfd,
   0x2778fc12b4dbdf225d026dcf8b6a6962909, 0x3b2b2822504058bab713c5ddcd6efae486e,
   0x6a600238cbc9bbb54848fc5e6a52f772624, 0x383f5768e284e8c242650e4de6a8b3eaca3,
   0x3f4ef06ad0a57ce2b415b576a12bcce86c7, 0x3479c94d17073310d044145ff9e62145dc8,
   0x7cb4d5fb2d818d277223ebbb644f9dcb9f0, 0x1645c20ea8b96b4cf75b39aba4e4f3ae46a,
   0x714cc13720101ae7f78d61f775f18c772c0, 0x1e54efa2abbefe3eaa4e5d68ff832196c02,
   0x416ac97720081bf6b5b3d4d375720b75840, 0x1264c4305a1d5f6dfb1a8e41e3aca623308,
   0x6c2f0157b36c8f51b00864dfd9d20bfa0d, 0xb179a9a3b01dea7780570a959cc1249021,
   0x73c2b1534a181bf7fe09fa3b526eebf73e1, 0x65f7cc348974de26822ade51ee21b7b4515,
   0x5946e2100953855364bdc9780bb81a87fce, 0x670df5e4e40be578591ccd4e3b1f06203d0,
   0x66fd727ec3e2675714cd86538328930256f, 0x3a72732f4d7c25eeca45eda4b362240ca4d,
   0xec2f0157b36c8f51b00864dfd9d20bfa0d, 0x1357ca8a2ff8d6b0ccd3792b3805923e2b1,
   0x6371b2dc0ef701b268c15115b874d5e237e, 0x4475a452ad93813122cc733b4c12e78a36e,
   0x5213b8f3abd6f2b49c18677a027041f66cb, 0x2115cea7589d3b29c5a011f4ab8d21c10db,
   0x6df7bf0c1d01b73b32dd4152cf847dc2fcd, 0x70ac3da15875754eefe8beab147a6a7e1b,
   0x11fc08170d821adb1ad7452c4076437299, 0x740cc0bb47d7094ad45ab4de48914e07711,
   0x39d399c96cb3081456674a6a61d3634ee9e, 0x52fccf2742598835c8868ae51eefe16a586,
   0x37b65864586b8458eb96afd02414fe94b25, 0x3815027b3bd9a24b3cb9e5cff0269bd6e7f,
   0x4028835f963964a65cb9682fca41ac65f7, 0x451290574c941303418013509cf7c0d0852,
   0x6a7b08a173ca78e2d7654550c57ffacc17b, 0x50ed525530445aa2f31f6625548022ade85,
   0xe7550cc4922c65353c4b2aa94036662f09, 0xd55be964be4733af4ad7838dcc422fe9fe,
   0x6650f528a9f67a95aa7aee254fb531f882b, 0x6b0f50feb20b4db959084c0fbed79659f90,
   0x11743d392b846ddf372a8f91fb044722f58, 0x37b65864586b8458eb96bfd02414fe94b25,
   0x36444a17ad9805b20bb3a137dc20e3c64c2, 0x2ae5b0bebfeccc56fc2ed5423b9f46d3c01,
   0x714fa142511289f693c3d05fce5cecbe18e, 0x710b9fe850520fcd52ee0b5e54fbefd8e07,
   0x3496be99fe88c991a4daf9c0e57981d9e85, 0x1c0a16cb84dac3239d105fbb812df66ed89,
   0x2e72466fc9e6a672e2a6798ed661464cb0c, 0x466b0c8e26884c338965f46b12578a85173,
   0x2b9bde82a530fd9f30cb06c3b59965105da, 0x225da5fed5ba483b5a5788271745951f2e0,
   0xd55b631efc18f9a0c88e4ba556e192faa9, 0x1b2fa37a9adb3243db0b2c01a40e1bcc7aa,
   0x76c15d2900ff3c98e04a19a9bcadb977017, 0x79dcdccf47e4d49e4cf23caaad6b26bea3c,
   0x309b0b83346d61e84325d29285f335d9648, 0x153a8040a44de39c4e7ffabab292af78ea,
   0x7b143f01e04dd66a7b6273cf9156b05097c, 0x70e31acb531948a086168afba96b6653deb,
   0x5e2a718393f0750674af8d7b29b38363de1, 0x116c8fdfb6f99e73f02f9329aecf1a428e4,
   0x7f51e1fb6b6e5d5a17ee07344c38a911560, 0x559b37876dec8b8105aaa01e323a7772f0,
   0x31fc08170d821adb1ad7452c4076437299, 0x46fa9153787b9ebf1c1bde2751e572e39e5,
   0x21ba0c07cfed17d74602eb8276f759dd304, 0x5e6fa2404b729257e81fe068a91d0212488,
   0x764d84de3696c2729315454dfbdf2cf68db, 0x7dde54fabe8642d42939aa2851cf3c78fcb,
   0x58b30b46c9199aea02ec60276accff3bb1b, 0x6c2f8b2df333455e32d1acf74371b6e95a,
   0x726e0ada4813daa9ebdca09f3559611af04, 0x6c845a6b4be02c0337c2b1eb7d688829b76,
   0x5807dbf846ef89e3e24ebff9b131a948cdc, 0x674f35a9d92e5b381bd79b778bb255cfab2,
   0x8a7a425fca0f82d9c8289aa3bd1357, 0x6af117f58538e6698578d210c0ab6e65d9a,
   0x7dd6c7b33b7ee23f984f6900e561ab3e026, 0x17f6ed9693b0689a4e238d0dd7d37cdab68,
   0x6685066a555e3b2518c29ebae709c02f84e, 0x3ae3ee55b7aa0fc2e71e4b6a717ae7bb18c,
   0x1b00d501915d947773eed451306a50c9392, 0x675b0a31682fdffa1889c9f57094dc395a0,
   0x734e68a67c71e51d8d56a6df151c7e76b2c, 0x5dd65a5c93a23feda3de438e4e4649e6d01,
   0x42647c7b566a3a9bad6140c113f9f4233a5, 0x6fa3a23fe0e12640470ad353f5aaee45842,
   0x294fec120a5d07d74c094b1c2ec25cc7b66, 0x407509f650d03a5a041ea081b1756f42ad9,
   0x3b11617bb3803c41b54a50a515e478207c4, 0x755b788d5dd6deeea05fd6f7003122c7f72,
   0x156e07ea4f9a083915e405ab526b0084d13, 0x14bb0d03a964c4c175a7bfa69bc03bc37d5,
   0x47120db2a2ed7b6dcef39410f41b3b113cc, 0x3540b44ad4182dd130312175a54882f94d6,
   0x5ee97005f83bc51c2874639c730e08d4b10, 0x3727cdb9069856d47ee8959c6fa606f23b3,
   0x35c2b87b42b3a950537f789366d092ae4b8, 0x1fda2bad5a29404d7e63443440bb6df6b48,
   0x5f79d98799b4abbfb04872d0829aa99450b, 0x90aba7d7d3d7950bfa414417d0b2f2e205,
   0x788f74cb4da00a878815c30106420c492d6, 0x2a845343434bdea49ab4334359d6f170c2f,
   0x2704168ea36480834a0d2226f4663268010, 0x130c95098980bd7ec24e43aa77e70fff32f,
   0x73a3977ff2dc246ccb8bdbaa7162cd5cf2f, 0x24d2447aff8cd2c8830e3e955ca97e66ee,
   0x547e1f88fa6d8d70b18f80793238da920b6, 0x31ca13c42d37fe152725f9439f915d1fbab,
   0x1f0743a6a1fa20076ea9a2c354aa0b614e8, 0x3d44c772407d44cc80c6be7684ed488fe0e,
   0x72145f6d208a2e60e3437f0c90fc8befc9e]

private def combination_128_90 : List Nat :=
  [0x27c5c22da9, 0xbdab9ed9, 0x3e171570, 0x1d856d49a9, 0xbfe968d42, 0xfcd1cf377, 0xfc16dd50, 0x231dd74562,
   0xfdf007b58, 0x33d598afb6, 0x379fad1f59, 0x211c4116e8, 0x16a7ef90ea, 0x2403bd5b, 0x2834c9438e,
   0x2efd5e78c4, 0x1966f8ffc2, 0x359fad1f59, 0x2aa76bd82b, 0x3e5f2c077b, 0x9aeb71796, 0x127462278f,
   0x2a5b7c057b, 0x1f164f920c, 0x3a40af6401, 0x1657f2d185, 0xddebe28d2, 0x2ec3496db0, 0x21a1ea8839,
   0x1d38c6d772, 0x199aee22d2, 0x293a2dba5, 0x16b9f8859a, 0x250619ad4, 0x3e613b920b, 0x2138428bb3,
   0x17ea594f5c, 0x3a7b2fba20]

private instance consistent_174_91 : Fact Ldpc174_91Params.Consistent where
  out :=
    { size := rfl
      checks := by decide +kernel
      weights := by decide +kernel
      parities := by decide +kernel
      rows := by decide +kernel
      checks_combine := ⟨Ldpc174_91Params.checkMasks.map (· % 2^83),by decide +kernel⟩
      parities_combine := ⟨combination_174_91,by decide +kernel⟩ }

private instance consistent_240_101 : Fact Ldpc240_101Params.Consistent where
  out :=
    { size := rfl
      checks := by decide +kernel
      weights := by decide +kernel
      parities := by decide +kernel
      rows := by decide +kernel
      checks_combine := ⟨Ldpc240_101Params.checkMasks.map (· % 2^139),by decide +kernel⟩
      parities_combine := ⟨combination_240_101,by decide +kernel⟩ }

private instance consistent_128_90 : Fact Ldpc128_90Params.Consistent where
  out :=
    { size := rfl
      checks := by decide +kernel
      weights := by decide +kernel
      parities := by decide +kernel
      rows := by decide +kernel
      checks_combine := ⟨Ldpc128_90Params.checkMasks.map (· % 2^38),by decide +kernel⟩
      parities_combine := ⟨combination_128_90,by decide +kernel⟩ }

theorem LdpcCodec.consistent (codec : LdpcCodec) : codec.params.Consistent := by
  cases codec with
  | Ldpc174_91 => exact consistent_174_91.out
  | Ldpc240_101 => exact consistent_240_101.out
  | Ldpc128_90 => exact consistent_128_90.out

end Tables

section Bits

theorem bitCast_xor (a b : UInt8) : bitCast (a ^^^ b) = bitCast a + bitCast b := by
  unfold bitCast
  rw [UInt8.toNat_xor,← Nat.cast_add,ZMod.natCast_eq_natCast_iff']
  exact Nat.xor_mod_two_eq

theorem bitCast_inj {a b : UInt8} (ha : a < 2) (hb : b < 2) (h : bitCast a = bitCast b) : a = b := by
  have ha' : a.toNat < 2 := ha
  have hb' : b.toNat < 2 := hb
  have hmod := (ZMod.natCast_eq_natCast_iff' _ _ _).mp h
  rw [Nat.mod_eq_of_lt ha',Nat.mod_eq_of_lt hb'] at hmod
  exact UInt8.toNat_inj.mp hmod

theorem xor_lt_two {a b : UInt8} (ha : a < 2) (hb : b < 2) : a ^^^ b < 2 := by
  have h : (a ^^^ b).toNat < 2^1 := by
    rw [UInt8.toNat_xor]
    exact Nat.xor_lt_two_pow ha hb
  exact h

private theorem foldl_xor_lt_two {α : Type} (f : α → UInt8) (l : List α) (hf : ∀ k ∈ l, f k < 2) :
    ∀ p : UInt8, p < 2 → l.foldl (fun p k => p ^^^ f k) p < 2 := by
  induction l with
  | nil => exact fun p hp => hp
  | cons k l ih =>
    intro p hp
    exact ih (fun k hk => hf k (List.mem_cons_of_mem _ hk)) _ (xor_lt_two hp (hf k List.mem_cons_self))

theorem IsBits.getD_lt {n : Nat} {c : List UInt8} (hc : IsBits n c) (i : Nat) : c.getD i 0 < 2 := by
  rcases Nat.lt_or_ge i c.length with hi | hi
  · rw [List.getD_eq_getElem _ _ hi]
    exact hc.2 _ (List.getElem_mem hi)
  · rw [List.getD_eq_default _ _ hi]
    decide

theorem sum_bitCast_range (f : Nat → UInt8) (n : Nat) :
    bitCast ((List.range n).foldl (fun p k => p ^^^ f k) 0) = ∑ k ∈ Finset.range n,bitCast (f k) := by
  induction n with
  | zero => simp [bitCast]
  | succ n ih =>
    rw [List.range_succ,List.foldl_append,List.foldl_cons,List.foldl_nil,bitCast_xor,ih,
      Finset.sum_range_succ]

end Bits

section Checks
variable {P : LdpcParams}

/-- One check as the mask of its bits, both built by the same loop. -/
private theorem bitCast_foldl_mask {N : Nat} (cw : List UInt8) (row : List Nat) (hrow : ∀ k ∈ row, k < N) :
    ∀ (p : UInt8) (m : Nat), bitCast p = maskSum N m (bitValue N cw) →
      bitCast (row.foldl (fun p k => p ^^^ cw.getD k 0) p) =
        maskSum N (row.foldl (fun m k => m ^^^ 2^(N - 1 - k)) m) (bitValue N cw) := by
  induction row with
  | nil => exact fun p m h => h
  | cons k row ih =>
    intro p m h
    have hk := hrow k List.mem_cons_self
    apply ih fun k hk => hrow k (List.mem_cons_of_mem _ hk)
    have hpos : N - 1 - (N - 1 - k) = k := by omega
    rw [bitCast_xor,maskSum_xor,maskSum_two_pow _ (by omega),h,bitValue,hpos]

private theorem range_map_getD (row : List Nat) (w : Nat) (hw : w ≤ row.length) :
    (List.range w).map (fun s => row.getD s 0) = row.take w := by
  apply List.ext_getElem
  · simp [hw]
  · intro s hs _
    have hs' : s < row.length := by
      simp only [List.length_map,List.length_range] at hs
      omega
    simp only [List.getElem_map,List.getElem_range,List.getElem_take,List.getD_eq_getElem _ _ hs']

private theorem checkParity_mask (hP : P.Consistent) (cw : List UInt8) {i : Nat}
    (hi : i < P.checkMasks.length) :
    bitCast (P.checkParity cw i) = maskSum P.N P.checkMasks[i] (bitValue P.N cw) := by
  have hlen : i < P.NM.length ∧ i < P.NRW.length := by
    simpa [LdpcParams.checkMasks] using hi
  have hmem : (P.NM[i],P.NRW[i]) ∈ P.NM.zip P.NRW := by
    rw [← List.getElem_zip (h := by simpa using hlen)]
    exact List.getElem_mem _
  obtain ⟨hw,hk⟩ := hP.rows _ hmem
  have hfold : P.checkParity cw i = (P.NM[i].take P.NRW[i]).foldl (fun p k => p ^^^ cw.getD k 0) 0 := by
    rw [← range_map_getD _ _ hw,List.foldl_map]
    simp only [LdpcParams.checkParity,LdpcParams.nrw,LdpcParams.nm,List.getD_eq_getElem _ _ hlen.1,
      List.getD_eq_getElem _ _ hlen.2]
  rw [hfold,bitCast_foldl_mask cw _ hk 0 0 (by simp [bitCast,maskSum_zero])]
  simp [LdpcParams.checkMasks]

private theorem length_checkMasks (hP : P.Consistent) : P.checkMasks.length = P.M := by
  simp [LdpcParams.checkMasks,hP.checks,hP.weights]

private theorem checkParity_lt_two {n : Nat} {cw : List UInt8} (hcw : IsBits n cw) (i : Nat) :
    P.checkParity cw i < 2 :=
  foldl_xor_lt_two _ _ (fun _ _ => hcw.getD_lt _) 0 (by decide)

/-- The checks hold of a word exactly when their equations do. -/
private theorem checks_iff_masks (hP : P.Consistent) {cw : List UInt8} (hcw : IsBits P.N cw) :
    (∀ i < P.M, P.checkParity cw i = 0) ↔ ∀ m ∈ P.checkMasks, maskSum P.N m (bitValue P.N cw) = 0 := by
  have hlen := length_checkMasks hP
  constructor
  · intro h m hm
    obtain ⟨i,hi,rfl⟩ := List.getElem_of_mem hm
    rw [← checkParity_mask hP cw hi,h i (hlen ▸ hi)]
    simp [bitCast]
  · intro h i hi
    have hi' : i < P.checkMasks.length := by omega
    apply bitCast_inj (checkParity_lt_two hcw i) (by decide)
    rw [checkParity_mask hP cw hi',h _ (List.getElem_mem hi')]
    simp [bitCast]

end Checks

section Generator
variable {P : LdpcParams}

theorem bitCast_genParity_and (j k : Nat) (x : UInt8) :
    bitCast (P.genParity j k &&& x) =
      if (P.GEN_PARITY.getD j 0).testBit (P.K - 1 - k) then bitCast x else 0 := by
  unfold LdpcParams.genParity
  split
  · unfold bitCast
    rw [UInt8.toNat_and,ZMod.natCast_eq_natCast_iff']
    have : (1 : UInt8).toNat &&& x.toNat = x.toNat % 2 := by
      rw [Nat.and_comm]
      exact Nat.and_one_is_mod _
    rw [this,Nat.mod_mod]
  · simp [bitCast]

private theorem encodeParity_mask (info : List UInt8) (j : Nat) :
    bitCast (P.encodeParity info j) = maskSum P.K (P.GEN_PARITY.getD j 0) (bitValue P.K info) := by
  unfold LdpcParams.encodeParity maskSum
  rw [sum_bitCast_range,← Finset.sum_range_reflect]
  apply Finset.sum_congr rfl
  intro k hk
  have hk := Finset.mem_range.mp hk
  have hpos : P.K - 1 - (P.K - 1 - k) = k := by omega
  rw [bitCast_genParity_and,hpos,bitValue]

/-- The equation of a parity bit: what the encoder computes from the information bits, and the bit. -/
private theorem genMask_sum (hP : P.Consistent) (cw : List UInt8) {j : Nat} (hj : j < P.genMasks.length) :
    maskSum P.N P.genMasks[j] (bitValue P.N cw) =
      bitCast (P.encodeParity (cw.take P.K) j) + bitCast (cw.getD (P.K + j) 0) := by
  have hj' : j < P.GEN_PARITY.length := by simpa [LdpcParams.genMasks] using hj
  have hM := hP.parities
  have hN : P.N = P.M + P.K := by rw [hP.size,Nat.add_comm]
  have hmask : P.genMasks[j] = (P.GEN_PARITY.getD j 0 <<< P.M) ^^^ 2^(P.M - 1 - j) := by
    rw [List.getD_eq_getElem _ _ hj']
    simp [LdpcParams.genMasks]
  have hinfo : maskSum (P.M + P.K) (P.GEN_PARITY.getD j 0 <<< P.M) (bitValue P.N cw) =
      bitCast (P.encodeParity (cw.take P.K) j) := by
    rw [maskSum_shiftLeft,encodeParity_mask]
    apply Finset.sum_congr rfl
    intro b hb
    have hb := Finset.mem_range.mp hb
    have hpos : P.N - 1 - (P.M + b) = P.K - 1 - b := by omega
    simp only [bitValue,hpos,List.getD_eq_getElem?_getD,
      List.getElem?_take_of_lt (show P.K - 1 - b < P.K by omega)]
  have hpos : P.N - 1 - (P.M - 1 - j) = P.K + j := by omega
  rw [hmask,maskSum_xor,maskSum_two_pow _ (by omega),bitValue,hpos,← hinfo,← hN]

theorem encodeParity_lt_two {n : Nat} {info : List UInt8} (hinfo : IsBits n info) (j : Nat) :
    P.encodeParity info j < 2 := by
  apply foldl_xor_lt_two _ _ _ 0 (by decide)
  intro k _
  have h : (P.genParity j k &&& info.getD k 0).toNat ≤ (info.getD k 0).toNat := by
    rw [UInt8.toNat_and]
    exact Nat.and_le_right
  exact lt_of_le_of_lt h (hinfo.getD_lt k)

theorem length_encode (info : List UInt8) :
    (P.ldpcEncodeGeneric info).length = info.length + P.M := by
  simp [LdpcParams.ldpcEncodeGeneric]

theorem isBits_encode (hsize : P.N = P.K + P.M) {info : List UInt8} (hinfo : IsBits P.K info) :
    IsBits P.N (P.ldpcEncodeGeneric info) := by
  refine ⟨by rw [length_encode,hinfo.1,hsize],?_⟩
  intro b hb
  rcases List.mem_append.mp hb with hb | hb
  · exact hinfo.2 b hb
  · obtain ⟨j,_,rfl⟩ := List.mem_map.mp hb
    exact encodeParity_lt_two hinfo j

theorem IsBits.take {n m : Nat} {cw : List UInt8} (hcw : IsBits n cw) (h : m ≤ n) : IsBits m (cw.take m) :=
  ⟨by rw [List.length_take,hcw.1,Nat.min_eq_left h],fun b hb => hcw.2 b (List.mem_of_mem_take hb)⟩

theorem IsBits.append {n m : Nat} {c d : List UInt8} (hc : IsBits n c) (hd : IsBits m d) : IsBits (n + m) (c ++ d) :=
  ⟨by rw [List.length_append,hc.1,hd.1],fun b hb => (List.mem_append.1 hb).elim (hc.2 b) (hd.2 b)⟩

/-- A word is the encoding of its first bits exactly when its parity bits are the encoder's. -/
private theorem eq_encode_iff (hP : P.Consistent) {cw : List UInt8} (hcw : IsBits P.N cw) :
    cw = P.ldpcEncodeGeneric (cw.take P.K) ↔
      ∀ j < P.M, cw.getD (P.K + j) 0 = P.encodeParity (cw.take P.K) j := by
  have hlen := hcw.1
  have hsize := hP.size
  have hdrop : cw = cw.take P.K ++ cw.drop P.K := (List.take_append_drop _ _).symm
  have hget (j : Nat) (hj : j < (cw.drop P.K).length) : (cw.drop P.K)[j] = cw.getD (P.K + j) 0 := by
    rw [List.length_drop] at hj
    rw [List.getElem_drop,List.getD_eq_getElem _ _ (by omega)]
  constructor
  · intro h j hj
    have hj' : j < (cw.drop P.K).length := by
      rw [List.length_drop]
      omega
    have htail : cw.drop P.K = (List.range P.M).map (P.encodeParity (cw.take P.K)) :=
      List.append_cancel_left (hdrop.symm.trans h)
    rw [← hget j hj']
    simp [htail]
  · intro h
    conv_lhs => rw [hdrop]
    unfold LdpcParams.ldpcEncodeGeneric
    congr 1
    apply List.ext_getElem
    · simp
      omega
    · intro j hj _
      rw [hget j hj]
      rw [List.length_drop] at hj
      rw [h j (by omega)]
      simp

/-- The equations of the generator hold of a word exactly when it is an encoding. -/
private theorem encode_iff_masks (hP : P.Consistent) {cw : List UInt8} (hcw : IsBits P.N cw) :
    cw = P.ldpcEncodeGeneric (cw.take P.K) ↔ ∀ m ∈ P.genMasks, maskSum P.N m (bitValue P.N cw) = 0 := by
  have hlen : P.genMasks.length = P.M := by simp [LdpcParams.genMasks,hP.parities]
  have hinfo : IsBits P.K (cw.take P.K) := hcw.take (by have := hP.size; omega)
  rw [eq_encode_iff hP hcw]
  constructor
  · intro h m hm
    obtain ⟨j,hj,rfl⟩ := List.getElem_of_mem hm
    rw [genMask_sum hP cw hj,h j (hlen ▸ hj),CharTwo.add_self_eq_zero]
  · intro h j hj
    have hj' : j < P.genMasks.length := by omega
    have hsum := h _ (List.getElem_mem hj')
    rw [genMask_sum hP cw hj',CharTwo.add_eq_zero] at hsum
    exact (bitCast_inj (encodeParity_lt_two hinfo j) (hcw.getD_lt _) hsum).symm

/-- A word meets every check exactly when it is the encoding of its information bits. -/
theorem checks_iff_encode (hP : P.Consistent) {cw : List UInt8} (hcw : IsBits P.N cw) :
    (∀ i < P.M, P.checkParity cw i = 0) ↔ cw = P.ldpcEncodeGeneric (cw.take P.K) := by
  rw [checks_iff_masks hP hcw,encode_iff_masks hP hcw]
  constructor
  · intro h
    obtain ⟨sels,hsels⟩ := hP.parities_combine
    exact maskSum_of_select hsels h
  · intro h
    obtain ⟨sels,hsels⟩ := hP.checks_combine
    exact maskSum_of_select hsels fun m hm => h m (List.mem_reverse.mp hm)

theorem take_encode (info : List UInt8) (hinfo : info.length = P.K) :
    (P.ldpcEncodeGeneric info).take P.K = info := by
  rw [LdpcParams.ldpcEncodeGeneric,List.take_append_of_le_length (by omega),← hinfo,List.take_length]

theorem checks_encode (hP : P.Consistent) {info : List UInt8} (hinfo : IsBits P.K info) :
    ∀ i < P.M, P.checkParity (P.ldpcEncodeGeneric info) i = 0 := by
  rw [checks_iff_encode hP (isBits_encode hP.size hinfo),take_encode info hinfo.1]

end Generator

section Decoder
variable {F : Type} [F32 F]

private theorem hardDecision_lt (z : F) : hardDecision z < 2 := by
  unfold hardDecision
  split <;> decide

private theorem cw_decideBits (P : LdpcParams) (llr : List F) (apMask : Option (List Bool))
    {s : BpScratch F F} (hs : s.cw.length = P.N) : IsBits P.N (decideBits P llr apMask s).cw := by
  unfold decideBits
  dsimp only
  rw [fill_eq_map _ hs]
  refine ⟨by simp,?_⟩
  intro b hb
  obtain ⟨i,_,rfl⟩ := List.mem_map.mp hb
  exact hardDecision_lt _

@[simp] theorem cw_kindStep (P : LdpcParams) (kind : BpKind F) (s : BpScratch F F) :
    (kindStep P kind s).cw = s.cw := by
  cases kind <;> rfl

theorem acceptable_iff {P : LdpcParams} {verify : Option (List UInt8 → Bool)} {cw : List UInt8} :
    acceptable P verify cw = true ↔
      (∀ i < P.M, P.checkParity cw i = 0) ∧ ∀ f, verify = some f → f (cw.take P.K) = true := by
  unfold acceptable
  rw [Bool.and_eq_true,beq_iff_eq]
  refine and_congr ?_ ?_
  · simp [LdpcParams.ncheck,List.countP_eq_zero]
  · cases verify with
    | none => simp
    | some f => simp

/-- What the loop accepts: a word of bits that meets every check, whose information part passes. -/
theorem bpLoop_some (P : LdpcParams) (llr : List F) (apMask : Option (List Bool))
    (verify : Option (List UInt8 → Bool)) (kind : BpKind F) (left iter : Nat) (stall : Stall)
    {s : BpScratch F F} (hs : s.cw.length = P.N) {r : BpResult}
    (h : (bpLoop P llr apMask verify kind left iter stall s).1 = some r) :
    ∃ cw it, r = bpResult P (fun i => llr.getD i 0.0 > 0.0) cw it ∧ IsBits P.N cw ∧
      (∀ i < P.M, P.checkParity cw i = 0) ∧ ∀ f, verify = some f → f (cw.take P.K) = true := by
  induction left generalizing iter stall s with
  | zero => cases h
  | succ left ih =>
    have hbits := cw_decideBits P llr apMask hs
    rw [bpLoop] at h
    split at h
    · rename_i hacc
      obtain ⟨hchecks,hverify⟩ := acceptable_iff.mp hacc
      exact ⟨_,iter,(Option.some.inj h).symm,hbits,hchecks,hverify⟩
    · split at h
      · cases h
      · refine ih _ _ ?_ h
        rw [cw_kindStep]
        exact hbits.1

/-- What belief propagation returns. -/
theorem bpDecodeGenericKind_some (P : LdpcParams) {llr : List F} {apMask : Option (List Bool)} {maxIter : Nat}
    {verify : Option (List UInt8 → Bool)} {kind : BpKind F} {r : BpResult}
    (h : bpDecodeGenericKind P llr apMask maxIter verify kind = some r) :
    ∃ cw it, r = bpResult P (fun i => llr.getD i 0.0 > 0.0) cw it ∧ IsBits P.N cw ∧
      (∀ i < P.M, P.checkParity cw i = 0) ∧ ∀ f, verify = some f → f (cw.take P.K) = true :=
  bpLoop_some P llr apMask verify kind _ _ _ (by simp [kindBuffers]) h

/-- A hint that locks every bit decides the word, when the locked magnitude is positive. -/
theorem cw_decideBits_locked {P : LdpcParams} {values : List UInt8} (hvalues : IsBits P.N values) (llr : List F)
    (hllr : llr.length = P.N) {apmag : F} (hpos : apmag > 0.0) (hneg : ¬ -apmag > 0.0) {s : BpScratch F F}
    (hzn : s.zn.length = P.N) (hcw : s.cw.length = P.N) :
    (decideBits P (llr.mapIdx fun i _ => if values.getD i 0 ≠ 0 then apmag else -apmag)
      (some (List.replicate P.N true)) s).cw = values := by
  unfold decideBits
  dsimp only
  rw [fill_eq_map _ hcw,fill_eq_map _ hzn]
  apply List.ext_getElem
  · simp [hvalues.1]
  · intro i hi hi'
    have hin : i < P.N := hvalues.1 ▸ hi'
    have hget : values.getD i 0 = values[i] := List.getD_eq_getElem _ _ hi'
    have hlocked : (List.replicate P.N true).getD i false = true := by
      rw [List.getD_replicate _ hin]
    have hlen : i < (llr.mapIdx fun i _ => if values.getD i 0 ≠ 0 then apmag else -apmag).length := by
      rw [List.length_mapIdx,hllr]
      exact hin
    rw [List.getElem_map,List.getElem_range,List.getD_eq_getElem _ _ (by simpa using hin)]
    simp only [maskedEstimate,Option.any_some,hlocked,if_true,List.getElem_map,List.getElem_range,
      List.getD_eq_getElem _ _ hlen,List.getElem_mapIdx,hget,hardDecision]
    have hbit : values[i] = 0 ∨ values[i] = 1 := by
      have hlt : values[i].toNat < 2 := hvalues.2 _ (List.getElem_mem hi')
      rw [← UInt8.toNat_inj,← UInt8.toNat_inj]
      exact Nat.le_one_iff_eq_zero_or_eq_one.mp (Nat.le_of_lt_succ hlt)
    rcases hbit with h | h
    · simp [h,hneg]
    · simp [h,hpos]

/-- The magnitude of the locked bits. -/
def apmag (codec : LdpcCodec) (llr : List F) (opts : FecOpts F) : F :=
  (llr.map F32.abs).foldl F32.max 0.0 * codec.apScale opts

private theorem prepareApLlr_all (codec : LdpcCodec) {llr : List F} {opts : FecOpts F} {values : List UInt8}
    (hllr : llr.length = codec.params.N) (hvalues : values.length = codec.params.N)
    (hmask : opts.apMask = some (List.replicate codec.params.N 1,values)) :
    codec.prepareApLlr llr opts =
      some (llr.mapIdx fun i _ => if values.getD i 0 ≠ 0 then apmag codec llr opts else -apmag codec llr opts,
        some (List.replicate codec.params.N true)) := by
  have hlocked (i : Nat) (hi : i < codec.params.N) :
      ((List.replicate codec.params.N (1 : UInt8)).getD i 0 != 0) = true := by
    rw [List.getD_replicate _ hi]
    decide
  rw [LdpcCodec.prepareApLlr,if_neg (not_not.2 hllr),hmask]
  dsimp only
  rw [if_neg (not_or.2 ⟨not_not.2 List.length_replicate,not_not.2 hvalues⟩)]
  refine congrArg some (Prod.ext ?_ (congrArg some ?_))
  · apply List.ext_getElem
    · simp
    · intro i hi _
      rw [List.length_mapIdx,hllr] at hi
      simp only [List.getElem_mapIdx,hlocked i hi,if_true,apmag]
  · apply List.ext_getElem
    · simp
    · intro i hi _
      rw [List.length_map,List.length_range] at hi
      simp only [List.getElem_map,List.getElem_range,hlocked i hi,List.getElem_replicate]

/-- A hint that locks every bit to a codeword whose information passes is accepted at once. -/
theorem bpStage_locked (codec : LdpcCodec) {llr : List F} {opts : FecOpts F} {info : List UInt8}
    (hinfo : IsBits codec.params.K info) (hllr : llr.length = codec.params.N)
    (hmask : opts.apMask = some (List.replicate codec.params.N 1,codec.encode info))
    (hpos : apmag codec llr opts > 0.0) (hneg : ¬ -apmag codec llr opts > 0.0)
    (hverify : opts.verifyInfo.all (fun f => f info) = true) :
    ∃ r, codec.bpStage llr opts = some (some r) ∧ r.info = info := by
  have hP := codec.consistent
  have htake := take_encode info hinfo.1
  have hbits : IsBits codec.params.N (codec.encode info) := isBits_encode hP.size hinfo
  have hacc : acceptable codec.params opts.verifyInfo (codec.encode info) = true := by
    refine acceptable_iff.mpr ⟨checks_encode hP hinfo,?_⟩
    rintro f hf
    rw [hf] at hverify
    exact (congrArg f htake).trans hverify
  rw [LdpcCodec.bpStage,prepareApLlr_all codec hllr hbits.1 hmask,Option.map_some]
  unfold bpDecodeGenericKind bpRun bpLoop
  dsimp only
  rw [cw_decideBits_locked hbits llr hllr hpos hneg (by simp [kindBuffers]) (by simp [kindBuffers]),
    if_pos hacc]
  exact ⟨_,rfl,htake⟩

end Decoder

/-- Each code's encoder and sparse tables describe the same code: an encoding meets every check, a word
that meets every check is the encoding of its information bits, and so belief propagation accepts
only encodings, of information that passes the verifier. -/
theorem ldpc_tables_agree {F : Type} [F32 F] (codec : LdpcCodec) :
    (∀ info, IsBits codec.params.K info →
      ∀ i < codec.params.M, codec.params.checkParity (codec.encode info) i = 0) ∧
    (∀ cw, IsBits codec.params.N cw → (∀ i < codec.params.M, codec.params.checkParity cw i = 0) →
      cw = codec.encode (cw.take codec.params.K)) ∧
    ∀ (llr : List F) (opts : FecOpts F) (r : BpResult), codec.bpStage llr opts = some (some r) →
      IsBits codec.params.K r.info ∧ r.codeword = codec.encode r.info ∧
        ∀ f, opts.verifyInfo = some f → f r.info = true := by
  have hP := codec.consistent
  refine ⟨fun info hinfo => checks_encode hP hinfo,fun cw hcw => (checks_iff_encode hP hcw).mp,?_⟩
  intro llr opts r h
  obtain ⟨prepared,-,h⟩ := Option.map_eq_some_iff.mp h
  obtain ⟨cw,it,rfl,hcw,hchecks,hverify⟩ := bpDecodeGenericKind_some _ h
  exact ⟨hcw.take (by have := hP.size; omega),(checks_iff_encode hP hcw).mp hchecks,hverify⟩

private def firstBit : List UInt8 := 1 :: List.replicate 89 0

/-- The word of one information bit meets the checks of MSK144's code, and is accepted when the hint
locks every bit to it. -/
theorem ldpc_tables_agree_msk144 :
    letI := rationalF32
    let codec := LdpcCodec.Ldpc128_90
    let llr : List Rat := List.replicate 128 8
    let hint := (List.replicate 128 1,codec.encode firstBit)
    let opts : FecOpts Rat := ⟨30,some hint,1,some fun info => info.getD 0 0 == 1,.SumProduct⟩
    (∀ i < codec.params.M, codec.params.checkParity (codec.encode firstBit) i = 0) ∧
    codec.encode firstBit = codec.encode ((codec.encode firstBit).take codec.params.K) ∧
    ∃ r, codec.bpStage llr opts = some (some r) ∧ r.codeword = codec.encode r.info := by
  let _ := rationalF32
  intro codec llr hint opts
  have hagree := @ldpc_tables_agree Rat rationalF32 codec
  have hinfo : IsBits codec.params.K firstBit := by
    unfold IsBits
    decide +kernel
  have hword : codec.encode firstBit = codec.encode ((codec.encode firstBit).take codec.params.K) :=
    hagree.2.1 _ (isBits_encode codec.consistent.size hinfo) (hagree.1 _ hinfo)
  obtain ⟨r,hr,_⟩ := @bpStage_locked Rat _ codec llr opts _ hinfo (by decide +kernel) rfl
    (by decide +kernel) (by decide +kernel) (by decide +kernel)
  exact ⟨hagree.1 _ hinfo,hword,r,hr,(hagree.2.2 llr opts r hr).2.1⟩

end MfskCore.Fec
