import Linewise.Unicode.Category

/-!
# Scripts

The script of every code point, as fixed by version 15.0 of the Unicode Character Database. The
table has the form of the category table; its labels are numbers in base 26 into the list of names.
-/

namespace Linewise.Unicode

/-- The script names, in the order in which the labels of `scriptTable` count them. -/
def scriptNames : List String :=
  [
    "Common,Latin,Bopomofo,Inherited,Greek,Unknown,Coptic,Cyrillic,Armenian,Hebrew,Arabic,Syriac",
    "Thaana,Nko,Samaritan,Mandaic,Devanagari,Bengali,Gurmukhi,Gujarati,Oriya,Tamil,Telugu,Kannada",
    "Malayalam,Sinhala,Thai,Lao,Tibetan,Myanmar,Georgian,Hangul,Ethiopic,Cherokee",
    "Canadian_Aboriginal,Ogham,Runic,Tagalog,Hanunoo,Buhid,Tagbanwa,Khmer,Mongolian,Limbu,Tai_Le",
    "New_Tai_Lue,Buginese,Tai_Tham,Balinese,Sundanese,Batak,Lepcha,Ol_Chiki,Braille,Glagolitic",
    "Tifinagh,Han,Hiragana,Katakana,Yi,Lisu,Vai,Bamum,Syloti_Nagri,Phags_Pa,Saurashtra,Kayah_Li",
    "Rejang,Javanese,Cham,Tai_Viet,Meetei_Mayek,Linear_B,Lycian,Carian,Old_Italic,Gothic",
    "Old_Permic,Ugaritic,Old_Persian,Deseret,Shavian,Osmanya,Osage,Elbasan,Caucasian_Albanian",
    "Vithkuqi,Linear_A,Cypriot,Imperial_Aramaic,Palmyrene,Nabataean,Hatran,Phoenician,Lydian",
    "Meroitic_Hieroglyphs,Meroitic_Cursive,Kharoshthi,Old_South_Arabian,Old_North_Arabian",
    "Manichaean,Avestan,Inscriptional_Parthian,Inscriptional_Pahlavi,Psalter_Pahlavi,Old_Turkic",
    "Old_Hungarian,Hanifi_Rohingya,Yezidi,Old_Sogdian,Sogdian,Old_Uyghur,Chorasmian,Elymaic",
    "Brahmi,Kaithi,Sora_Sompeng,Chakma,Mahajani,Sharada,Khojki,Multani,Khudawadi,Grantha,Newa",
    "Tirhuta,Siddham,Modi,Takri,Ahom,Dogra,Warang_Citi,Dives_Akuru,Nandinagari,Zanabazar_Square",
    "Soyombo,Pau_Cin_Hau,Bhaiksuki,Marchen,Masaram_Gondi,Gunjala_Gondi,Makasar,Kawi,Cuneiform",
    "Cypro_Minoan,Egyptian_Hieroglyphs,Anatolian_Hieroglyphs,Mro,Tangsa,Bassa_Vah,Pahawh_Hmong",
    "Medefaidrin,Miao,Tangut,Nushu,Khitan_Small_Script,Duployan,SignWriting",
    "Nyiakeng_Puachue_Hmong,Toto,Wancho,Nag_Mundari,Mende_Kikakui,Adlam"].flatMap (·.splitOn ",")

/-- The changes of script, from U+0000 up. -/
def scriptTable : List String := [
    "0AA41AB1aAA6AB1aAA2fAB1AAfAB1AA5AB17AA1AB1fAA1AB1c1AA27AB5AA5AC2AA14AD70AE4AA1AE3AF2AE4AA1AE",
    "1AF4AE1AA1AE1AA1AE3AF1AE1AF1AE14AF1AE3fAGeAE10AH85AD2AHa9AF1AI26AF2AI32AF2AI3AF1AJ37AF8AJ",
    "1bAF4AJ6AFbAK5AA1AK6AA1AKeAA1AK3AA1AK20AA1AKaADbAK1aAD1AK6cAA1AK22ALeAF1AL3cAF2AL3AK30AM32AF",
    "eAN3bAF2AN3AO2eAF2AOfAF1AP1cAF2AP1AF1ALbAF5AK1fAF1AK2AF6AK4aAA1AK1dAQ51AD4AQfAA2AQ1aAR4AF1AR",
    "8AF2AR2AF2AR16AF1AR7AF1AR1AF3AR4AF2AR9AF2AR2AF2AR4AF8AR1AF4AR2AF1AR5AF2AR19AF2AS3AF1AS6AF4AS",
    "2AF2AS16AF1AS7AF1AS2AF1AS2AF1AS2AF2AS1AF1AS5AF4AS2AF2AS3AF3AS1AF7AS4AF1AS1AF7AS11AFaAT3AF1AT",
    "9AF1AT3AF1AT16AF1AT7AF1AT2AF1AT5AF2ATaAF1AT3AF1AT3AF2AT1AFfAT4AF2ATcAF7AT7AF1AU3AF1AU8AF2AU",
    "2AF2AU16AF1AU7AF1AU2AF1AU5AF2AU9AF2AU2AF2AU3AF7AU3AF4AU2AF1AU5AF2AU12AFaAV2AF1AV6AF3AV3AF1AV",
    "4AF3AV2AF1AV1AF1AV2AF3AV2AF3AV3AF3AVcAF4AV5AF3AV3AF1AV4AF2AV1AF6AV1AFeAV15AF5AWdAF1AW3AF1AW",
    "17AF1AW10AF2AW9AF1AW3AF1AW4AF7AW2AF1AW3AF2AW1AF2AW4AF2AWaAF7AW9AXdAF1AX3AF1AX17AF1AXaAF1AX",
    "5AF2AX9AF1AX3AF1AX4AF7AX2AF6AX2AF1AX4AF2AXaAF1AX3AFcAYdAF1AY3AF1AY33AF1AY3AF1AY6AF4AY10AF2AY",
    "1aAF1AZ3AF1AZ12AF3AZ18AF1AZ9AF1AZ1AF2AZ7AF3AZ1AF4AZ6AF1AZ1AF1AZ8AF6AZaAF2AZ3AFcBA3aAF4AA1BA",
    "1cAF25BB2AF1BB1AF1BB5AF1BB18AF1BB1AF1BB17AF2BB5AF1BB1AF1BB7AF1BBaAF2BB4AF20BC48AF1BC24AF4BC",
    "27AF1BC24AF1BCfAF1BC7AA4BC2AF25BDa0BE26AF1BE1AF5BE1AF2BE2bAA1BE4BF100BG49AF1BG4AF2BG7AF1BG",
    "1AF1BG4AF2BG29AF1BG4AF2BG21AF1BG4AF2BG7AF1BG1AF1BG4AF2BGfAF1BG39AF1BG4AF2BG43AF2BG20AF3BG",
    "1aAF6BH56AF2BH6AF2BI280BJ1dAF3BK4bAA3BKbAF7BL16AF9BL1BM15AA2AF9BN14AFcBOdAF1BO3AF1BO2AFcBP",
    "5eAF2BPaAF6BPaAF6BQ2AA2BQ1AA1BQ14AF6BQ59AF7BQ2bAF5BI46AFaBR1fAF1BRcAF4BRcAF4BR1AF3BRcBS1eAF",
    "2BS5AFbBT2cAF4BT1aAF6BTbAF3BT2BP20BU1cAF2BU2BV3fAF1BV1dAF2BVbAF6BVaAF6BVeAF2AD1fAF31BW4dAF",
    "3BW2fAF1BX40BY34AF8BY4BZ38AF3BZfAF3BZ3CA30AH9AF7BE2bAF2BE3BX8AF8AD3AA1ADdAA1AD7AA4AD1AA6AD",
    "1AA3AD2AA1AF5AB26AE5AH1AB31AE5AB4AE5ABdAH1AB46AE1AD40AB100AE16AF2AE6AF2AE26AF2AE6AF2AE8AF1AE",
    "1AF1AE1AF1AE1AF1AE1fAF2AE35AF1AEfAF1AEeAF2AE6AF1AE13AF2AE3AF1AE9AF1AAcAD2AA57AF1AAbAB1AF2AA",
    "bAB1AAfAF1ABdAF3AA21AFfAD21AFfAA26AE1AA3AB2AA6AB1AA1bAB1AA11AB29AA3AF4AA297AF19AAbAF15AA",
    "3a0CB100AA274AF2AA20AF1AA69CC60AB20AG74AF5AG7BE26AF1BE1AF5BE1AF2CD38AF7CD2AFeCD1BG17AF9BG7AF",
    "1BG7AF1BG7AF1BG7AF1BG7AF1BG7AF1BG7AF1BG7AF1AH20AA5eAF22CE1aAF1CE59AFcCEd6AF1aAAcAF4AA5CE1AA",
    "1CE1AA19CE9AD4BF2AA8CE4AA4AF1CF56AF2AD2AA2CF3AA1CG5aAA2CG3AF5AC2bAF1BF5eAF1AA10AC20AA24AFcCG",
    "10BF1fAF1AA40BF1fAA51CG2fAA1CG58AAa8CE19c0AA40CE5200CH48dAF3CH37AF9CI30CJ12cAF14AH60CK58AF",
    "8AA22AB66AA3AB40AF5AB2AF1AB1AF1AB5AF18ABeCL2dAF3AAaAF6CM38AF8CN46AF8CNcAF6AQ20CO2eAA1CO1CP",
    "24AFbCP1BF1dAF3CQ4eAF1AA1CQaAF4CQ2BD1fAF1CR37AF9CReAF2CRaAF2CR4BD20CS43AF18CS5CT17AFaBG6AF",
    "2BG6AF2BG6AF9BG7AF1BG7AF1AB2bAA1AB9AE1AB4AA2AF4BH50CT2eAF2CTaAF6BF2ba4AFcBF17AF4BF31AF2104CE",
    "16eAF2CE6aAF26AB7AFcAI5AF5AJ1aAF1AJ5AF1AJ1AF1AJ2AF1AJ2AF1AJaAK73AF10AK16bAA2AK50AF2AK36AF7AK",
    "1AF20AK10AD10AAaAF6ADeAH2AA23AF1AA13AF1AA4AF4AK5AF1AK87AF2AA1AF1AA20AB1aAA6AB1aAAbCGaAA1CG",
    "2dAA2BF1fAF3BF6AF2BF6AF2BF6AF2BF3AF3AA7AF1AA7AFaAA5AF2CUcAF1CU1aAF1CU13AF1CU2AF1CUfAF2CUeAF",
    "22CU7bAF5AA3AF4AA2dAF3AA9AE4fAF1AAdAF3AE1AF2fAA2dAD1AF82CV1dAF3CW31AFfAD1AA1bAF4CX24AF9CX3CY",
    "1bAF5CZ2bAF5DA1eAF1DA1DB24AF4DBeAF2aDC50DD30DE1eAF2DEaAF6DF24AF4DF24AF4DG28AF8DH34AFbDH1DI",
    "bAF1DIfAF1DI7AF1DI2AF1DIbAF1DIfAF1DI7AF1DI2AF43DJ137AF9DJ16AFaDJ8AF18AB6AF1AB2aAF1AB9AF45DK",
    "6AF2DK1AF1DK2cAF1DK2AF3DK1AF2DK1DL16AF1DL9DM20DN1fAF8DN9AF30DO13AF1DO2AF5DO5DP1cAF3DP1DQ1aAF",
    "5DQ1AF40DR20DS18AF4DS14AF2DS2eDT4AF1DT2AF5DT8AF1DT3AF1DT1dAF2DT3AF4DTaAF7DT9AF7DU20DV20AF",
    "20DW27AF4DWcAF9DX36AF3DX7DY16AF2DY8DZ13AF5DZ8EA12AF7EA4AFcEA7AF50EB49AF37EC33AFdEC33AF7EC6ED",
    "28AF8EDaAF126AK1fAF1EE2aAF1EE3AF2EE2AF4bAK3EF28AF8EG2aAF16EH1aAF26EI1cAF14EJ17AF9EK4eAF4EK",
    "24AF9EK1EL43AFaEL1AF2EM19AF7EMaAF6EN35AF1EN12AF8EO27AF9EP60AF1AZ14AFbEQ12AF1EQ2fAF3eER7AF1ER",
    "1AF1ER4AF1ERfAF1ERbAF6ES3bAF5ESaAF6ET4AF1ET8AF2ET2AF2ET16AF1ET7AF1ET2AF1ET5AF1AD1ET9AF2ET2AF",
    "2ET3AF2ET1AF6ET1AF5ET7AF2ET7AF3ET5AF8bEU5cAF1EU5AF1eEV48AF8EVaAFa6EW36AF2EW26AF22EX45AFbEX",
    "aAF6BQdAF13EY3aAF6EYaAF36EZ1bAF2EZfAF4EZ17AFb9FA3cAF64FB53AFcFB1FC7AF2FC1AF2FC8AF1FC2AF1FC",
    "1eAF1FC2AF2FCcAF9FCaAF46FD8AF2FD2eAF2FDbAF1bFE48AF8FF53AFdBI10FG39AF7AQaAFf6FH9AF1FH2dAF1FH",
    "eAFaFH1dAF3FI20AF2FI16AF1FIeAF49FJ7AF1FJ2AF1FJ2cAF3FJ1AF1FJ2AF1FJ9AF8FJaAF6FK6AF1FK2AF1FK",
    "25AF1FK2AF1FK6AF7FKaAF136FL19AF7FM11AF1FM29AF3FM1cAF56CI1AFfAV32AFdAV1FN39aAF66FN6fAF1FN5AF",
    "bFNc4AFa4cFO63AFdFP456AFfaaFQ247AF21b9CK239AF7FR1fAF1FRaAF4FR2FS4fAF1FSaAF6FT1eAF2FT6AFaFU",
    "46AFaFUaAF1FU7AF1FU15AF5FU13AF2b0FV5bAF65FW4bAF4FW39AF7FW11AF40FX1FY1CE2FZ1AFbCE2AFeFX17f8AF",
    "8FX300FZ1d6AF2aFX9AF22e7CG4AF1CG7AF1CG2AF1CG1CF11fCG3AFfCF1AF1dCF3AF2CG1AFeCG4AF8FY18cAF",
    "904GA6bAF5GAdAF3GA9AF7GAaAF2GA4AA4AF125cAD2eAF2AD17AF9AA74AF3cAAf6AFaAA27AF2AA3eAD3AA11AD8AA",
    "2AD7AA1eAD4AA3dAF15AE46AF7aAA14AFcAA14AFcAA57AF9AA19AF87AA55AF1AA47AF1AA2AF2AA1AF2AA2AF2AA",
    "4AF1AAcAF1AA1AF1AA7AF1AA41AF1AA4AF2AA8AF1AA7AF1AA1cAF1AA4AF1AA5AF1AA1AF3AA7AF1AA154AF2AA",
    "124AF2AA32GB28cAFfGB5AF1GBfAF450AB1fAF6AB6AFd5CC7AF1CC11AF2CC7AF1CC2AF1CC5AF5AH3eAF21AH1AF",
    "70GC2dAF3GCeAF2GCaAF4GC2AF140GD1fAF11GE3aAF5GE1AF1d0GF2aAF2e6BG7AF1BG4AF1BG2AF1BGfAF1GGc5AF",
    "2GG10AF29GH4cAF4GHaAF4GH2AF311AA44AF4cAA3dAFc2AK4AF1AK1bAF1AK2AF1AK1AF2AK1AF1AKaAF1AK4AF1AK",
    "1AF1AK1AF6AK1AF4AK1AF1AK1AF1AK1AF1AK3AF1AK2AF1AK1AF2AK1AF1AK1AF1AK1AF1AK1AF1AK1AF1AK2AF1AK",
    "1AF2AK4AF1AK7AF1AK4AF1AK4AF1AK1AF1AKaAF1AK11AF5AK3AF1AK5AF1AK11AF34AK2AF10eAA2cAF4AA64AFcAA",
    "fAF2AAfAF1AAfAF1AA25AFaAAaeAF38AA1aCF1AA2AFdAA2cAF4AA9AF7AA2AFeAA6AF9aAA3d8AF4AA11AF3AAdAF",
    "3AA77AF4AA5fAF6AAcAF4AA1AFfAAcAF4AA38AF8AAaAF6AA28AF8AA1eAF2AA2AF4eAA154AFcAAeAF2AAdAF3AA9AF",
    "7AA2eAF1AA7AF8AAeAF4AA9AF7AA9AF7AA93AF1AA37AF25AAaAF406CEa6e0AF20CE103aAF6CEdeAF2CE1682AFeCE",
    "1d31AFc1fCE21eAF5e2CE134bAF5CE1060AFadc51AA1AF1eAA60AF80ADf0AF"]

/-- The boundaries of `scriptTable`. -/
def scriptBoundaries : Array (Boundary String) :=
  (readBoundaries (scriptTable.flatMap String.toList) 0 0).toArray

/-- The number that a two-letter label stands for. -/
def labelIndex (label : String) : Nat :=
  label.toList.foldl (fun acc c => acc * 26 + (c.toNat - 65)) 0

/-- The script of a code point, `Unknown` when it has none. -/
def script (n : Nat) : String :=
  let label := Boundary.find scriptBoundaries n 16 0 scriptBoundaries.size
  (scriptNames[labelIndex label]?).getD "Unknown"

end Linewise.Unicode
