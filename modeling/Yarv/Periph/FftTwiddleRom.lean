import Yarv.Periph.FftModel

/-!
# `fft_twiddle_rom`

The forward table `W_1024^k` for `k < 512`, packed imaginary half first, and what its moduli are bounded by.
-/

namespace Yarv.FftTwiddleRom

/-- `rom`. -/
def rom : List Word := List.map (BitVec.ofNat 32)
  [ 0x00007FFF, 0xFF377FFF, 0xFE6E7FFE, 0xFDA57FFA, 0xFCDC7FF6, 0xFC137FF1, 0xFB4A7FEA, 0xFA817FE2,
    0xF9B87FD9, 0xF8EF7FCE, 0xF8277FC2, 0xF75E7FB5, 0xF6957FA7, 0xF5CD7F98, 0xF5057F87, 0xF43C7F75,
    0xF3747F62, 0xF2AC7F4E, 0xF1E47F38, 0xF11C7F22, 0xF0557F0A, 0xEF8D7EF0, 0xEEC67ED6, 0xEDFF7EBA,
    0xED387E9D, 0xEC717E7F, 0xEBAB7E60, 0xEAE47E3F, 0xEA1E7E1E, 0xE9587DFB, 0xE8927DD6, 0xE7CD7DB1,
    0xE7077D8A, 0xE6427D63, 0xE57D7D3A, 0xE4B97D0F, 0xE3F47CE4, 0xE3307CB7, 0xE26D7C89, 0xE1A97C5A,
    0xE0E67C2A, 0xE0237BF9, 0xDF617BC6, 0xDE9E7B92, 0xDDDC7B5D, 0xDD1B7B27, 0xDC597AEF, 0xDB997AB7,
    0xDAD87A7D, 0xDA187A42, 0xD9587A06, 0xD89879C9, 0xD7D9798A, 0xD71B794A, 0xD65C790A, 0xD59E78C8,
    0xD4E17885, 0xD4247840, 0xD36777FB, 0xD2AB77B4, 0xD1EF776C, 0xD1347723, 0xD07976D9, 0xCFBE768E,
    0xCF047642, 0xCE4B75F4, 0xCD9275A6, 0xCCD97556, 0xCC217505, 0xCB6974B3, 0xCAB27460, 0xC9FC740B,
    0xC94673B6, 0xC890735F, 0xC7DB7308, 0xC72772AF, 0xC6737255, 0xC5C071FA, 0xC50D719E, 0xC45B7141,
    0xC3A970E3, 0xC2F87083, 0xC2487023, 0xC1986FC2, 0xC0E96F5F, 0xC03A6EFB, 0xBF8C6E97, 0xBEDF6E31,
    0xBE326DCA, 0xBD866D62, 0xBCDA6CF9, 0xBC2F6C8F, 0xBB856C24, 0xBADC6BB8, 0xBA336B4B, 0xB98B6ADD,
    0xB8E36A6E, 0xB83C69FD, 0xB796698C, 0xB6F1691A, 0xB64C68A7, 0xB5A86832, 0xB50567BD, 0xB4626747,
    0xB3C066D0, 0xB31F6657, 0xB27F65DE, 0xB1DF6564, 0xB14064E9, 0xB0A2646C, 0xB00563EF, 0xAF686371,
    0xAECC62F2, 0xAE316272, 0xAD9761F1, 0xACFD616F, 0xAC6560EC, 0xABCD6068, 0xAB365FE4, 0xAAA05F5E,
    0xAA0A5ED7, 0xA9765E50, 0xA8E25DC8, 0xA84F5D3E, 0xA7BD5CB4, 0xA72C5C29, 0xA69C5B9D, 0xA60C5B10,
    0xA57E5A82, 0xA4F059F4, 0xA4635964, 0xA3D758D4, 0xA34C5843, 0xA2C257B1, 0xA238571E, 0xA1B0568A,
    0xA12955F6, 0xA0A25560, 0xA01C54CA, 0x9F985433, 0x9F14539B, 0x9E915303, 0x9E0F5269, 0x9D8E51CF,
    0x9D0E5134, 0x9C8F5098, 0x9C114FFB, 0x9B944F5E, 0x9B174EC0, 0x9A9C4E21, 0x9A224D81, 0x99A94CE1,
    0x99304C40, 0x98B94B9E, 0x98434AFB, 0x97CE4A58, 0x975949B4, 0x96E6490F, 0x9674486A, 0x960347C4,
    0x9592471D, 0x95234675, 0x94B545CD, 0x94484524, 0x93DC447B, 0x937143D1, 0x93074326, 0x929E427A,
    0x923641CE, 0x91CF4121, 0x91694074, 0x91053FC6, 0x90A13F17, 0x903E3E68, 0x8FDD3DB8, 0x8F7D3D08,
    0x8F1D3C57, 0x8EBF3BA5, 0x8E623AF3, 0x8E063A40, 0x8DAB398D, 0x8D5138D9, 0x8CF83825, 0x8CA13770,
    0x8C4A36BA, 0x8BF53604, 0x8BA0354E, 0x8B4D3497, 0x8AFB33DF, 0x8AAA3327, 0x8A5A326E, 0x8A0C31B5,
    0x89BE30FC, 0x89723042, 0x89272F87, 0x88DD2ECC, 0x88942E11, 0x884C2D55, 0x88052C99, 0x87C02BDC,
    0x877B2B1F, 0x87382A62, 0x86F629A4, 0x86B628E5, 0x86762827, 0x86372768, 0x85FA26A8, 0x85BE25E8,
    0x85832528, 0x85492467, 0x851123A7, 0x84D922E5, 0x84A32224, 0x846E2162, 0x843A209F, 0x84071FDD,
    0x83D61F1A, 0x83A61E57, 0x83771D93, 0x83491CD0, 0x831C1C0C, 0x82F11B47, 0x82C61A83, 0x829D19BE,
    0x827618F9, 0x824F1833, 0x822A176E, 0x820516A8, 0x81E215E2, 0x81C1151C, 0x81A01455, 0x8181138F,
    0x816312C8, 0x81461201, 0x812A113A, 0x81101073, 0x80F60FAB, 0x80DE0EE4, 0x80C80E1C, 0x80B20D54,
    0x809E0C8C, 0x808B0BC4, 0x80790AFB, 0x80680A33, 0x8059096B, 0x804B08A2, 0x803E07D9, 0x80320711,
    0x80270648, 0x801E057F, 0x801604B6, 0x800F03ED, 0x800A0324, 0x8006025B, 0x80020192, 0x800100C9,
    0x80000000, 0x8001FF37, 0x8002FE6E, 0x8006FDA5, 0x800AFCDC, 0x800FFC13, 0x8016FB4A, 0x801EFA81,
    0x8027F9B8, 0x8032F8EF, 0x803EF827, 0x804BF75E, 0x8059F695, 0x8068F5CD, 0x8079F505, 0x808BF43C,
    0x809EF374, 0x80B2F2AC, 0x80C8F1E4, 0x80DEF11C, 0x80F6F055, 0x8110EF8D, 0x812AEEC6, 0x8146EDFF,
    0x8163ED38, 0x8181EC71, 0x81A0EBAB, 0x81C1EAE4, 0x81E2EA1E, 0x8205E958, 0x822AE892, 0x824FE7CD,
    0x8276E707, 0x829DE642, 0x82C6E57D, 0x82F1E4B9, 0x831CE3F4, 0x8349E330, 0x8377E26D, 0x83A6E1A9,
    0x83D6E0E6, 0x8407E023, 0x843ADF61, 0x846EDE9E, 0x84A3DDDC, 0x84D9DD1B, 0x8511DC59, 0x8549DB99,
    0x8583DAD8, 0x85BEDA18, 0x85FAD958, 0x8637D898, 0x8676D7D9, 0x86B6D71B, 0x86F6D65C, 0x8738D59E,
    0x877BD4E1, 0x87C0D424, 0x8805D367, 0x884CD2AB, 0x8894D1EF, 0x88DDD134, 0x8927D079, 0x8972CFBE,
    0x89BECF04, 0x8A0CCE4B, 0x8A5ACD92, 0x8AAACCD9, 0x8AFBCC21, 0x8B4DCB69, 0x8BA0CAB2, 0x8BF5C9FC,
    0x8C4AC946, 0x8CA1C890, 0x8CF8C7DB, 0x8D51C727, 0x8DABC673, 0x8E06C5C0, 0x8E62C50D, 0x8EBFC45B,
    0x8F1DC3A9, 0x8F7DC2F8, 0x8FDDC248, 0x903EC198, 0x90A1C0E9, 0x9105C03A, 0x9169BF8C, 0x91CFBEDF,
    0x9236BE32, 0x929EBD86, 0x9307BCDA, 0x9371BC2F, 0x93DCBB85, 0x9448BADC, 0x94B5BA33, 0x9523B98B,
    0x9592B8E3, 0x9603B83C, 0x9674B796, 0x96E6B6F1, 0x9759B64C, 0x97CEB5A8, 0x9843B505, 0x98B9B462,
    0x9930B3C0, 0x99A9B31F, 0x9A22B27F, 0x9A9CB1DF, 0x9B17B140, 0x9B94B0A2, 0x9C11B005, 0x9C8FAF68,
    0x9D0EAECC, 0x9D8EAE31, 0x9E0FAD97, 0x9E91ACFD, 0x9F14AC65, 0x9F98ABCD, 0xA01CAB36, 0xA0A2AAA0,
    0xA129AA0A, 0xA1B0A976, 0xA238A8E2, 0xA2C2A84F, 0xA34CA7BD, 0xA3D7A72C, 0xA463A69C, 0xA4F0A60C,
    0xA57EA57E, 0xA60CA4F0, 0xA69CA463, 0xA72CA3D7, 0xA7BDA34C, 0xA84FA2C2, 0xA8E2A238, 0xA976A1B0,
    0xAA0AA129, 0xAAA0A0A2, 0xAB36A01C, 0xABCD9F98, 0xAC659F14, 0xACFD9E91, 0xAD979E0F, 0xAE319D8E,
    0xAECC9D0E, 0xAF689C8F, 0xB0059C11, 0xB0A29B94, 0xB1409B17, 0xB1DF9A9C, 0xB27F9A22, 0xB31F99A9,
    0xB3C09930, 0xB46298B9, 0xB5059843, 0xB5A897CE, 0xB64C9759, 0xB6F196E6, 0xB7969674, 0xB83C9603,
    0xB8E39592, 0xB98B9523, 0xBA3394B5, 0xBADC9448, 0xBB8593DC, 0xBC2F9371, 0xBCDA9307, 0xBD86929E,
    0xBE329236, 0xBEDF91CF, 0xBF8C9169, 0xC03A9105, 0xC0E990A1, 0xC198903E, 0xC2488FDD, 0xC2F88F7D,
    0xC3A98F1D, 0xC45B8EBF, 0xC50D8E62, 0xC5C08E06, 0xC6738DAB, 0xC7278D51, 0xC7DB8CF8, 0xC8908CA1,
    0xC9468C4A, 0xC9FC8BF5, 0xCAB28BA0, 0xCB698B4D, 0xCC218AFB, 0xCCD98AAA, 0xCD928A5A, 0xCE4B8A0C,
    0xCF0489BE, 0xCFBE8972, 0xD0798927, 0xD13488DD, 0xD1EF8894, 0xD2AB884C, 0xD3678805, 0xD42487C0,
    0xD4E1877B, 0xD59E8738, 0xD65C86F6, 0xD71B86B6, 0xD7D98676, 0xD8988637, 0xD95885FA, 0xDA1885BE,
    0xDAD88583, 0xDB998549, 0xDC598511, 0xDD1B84D9, 0xDDDC84A3, 0xDE9E846E, 0xDF61843A, 0xE0238407,
    0xE0E683D6, 0xE1A983A6, 0xE26D8377, 0xE3308349, 0xE3F4831C, 0xE4B982F1, 0xE57D82C6, 0xE642829D,
    0xE7078276, 0xE7CD824F, 0xE892822A, 0xE9588205, 0xEA1E81E2, 0xEAE481C1, 0xEBAB81A0, 0xEC718181,
    0xED388163, 0xEDFF8146, 0xEEC6812A, 0xEF8D8110, 0xF05580F6, 0xF11C80DE, 0xF1E480C8, 0xF2AC80B2,
    0xF374809E, 0xF43C808B, 0xF5058079, 0xF5CD8068, 0xF6958059, 0xF75E804B, 0xF827803E, 0xF8EF8032,
    0xF9B88027, 0xFA81801E, 0xFB4A8016, 0xFC13800F, 0xFCDC800A, 0xFDA58006, 0xFE6E8002, 0xFF378001]

/-- The word `data_o` takes. -/
def data (addr : BitVec 9) : Word := rom.getD addr.toNat 0

/-- The square of the length of a word. -/
def lengthSq (w : C16) : Int := w.re.toInt * w.re.toInt + w.im.toInt * w.im.toInt

/-- No word of the table is longer than `32768.6`. -/
private theorem rom_lengthSq_le : ∀ w ∈ rom, lengthSq (FftTb.unpack w) ≤ 1073778733 := by
  have hall : rom.all (fun w => decide (lengthSq (FftTb.unpack w) ≤ 1073778733)) = true := by decide +kernel
  intro w hw
  exact of_decide_eq_true (List.all_eq_true.mp hall w hw)

private theorem data_lengthSq_le (addr : BitVec 9) : lengthSq (FftTb.unpack (data addr)) ≤ 1073778733 := by
  unfold data
  rw [List.getD_eq_getElem?_getD]
  cases h : rom[addr.toNat]? with
  | none => decide
  | some w => exact rom_lengthSq_le w (List.mem_of_getElem? h)

/-- The conjugate is no longer: `-1.0` turns into a little less than one. -/
theorem twiddle_lengthSq_le (inverse : Bool) (addr : BitVec 9) :
    lengthSq (FftTb.twiddle inverse (FftTb.unpack (data addr))) ≤ 1073778733 := by
  have h := data_lengthSq_le addr
  cases inverse with
  | false => exact h
  | true =>
    unfold FftTb.twiddle
    rw [if_pos rfl]
    unfold lengthSq at h ⊢
    by_cases hm : (FftTb.unpack (data addr)).im = -32768#16
    · have h1 : (-32768#16 : BitVec 16).toInt = -32768 := by decide
      have h2 : (32767#16 : BitVec 16).toInt = 32767 := by decide
      rw [hm, h1] at h
      dsimp only
      rw [if_pos hm, h2]
      omega
    · have hneg : (-(FftTb.unpack (data addr)).im).toInt = -(FftTb.unpack (data addr)).im.toInt :=
        BitVec.toInt_neg_of_ne_intMin hm
      dsimp only
      rw [if_neg hm, hneg, neg_mul_neg]
      exact h

end Yarv.FftTwiddleRom
