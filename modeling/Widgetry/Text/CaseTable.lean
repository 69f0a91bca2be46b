/-!
# Case mappings of single characters

Pairs of a small letter and its capital are kept as runs with a common distance, and the others by
turns in a text. A word of the longer mappings is a letter and what it becomes.
-/

namespace Widgetry.Text

/-- Every `step`-th code point from `first` to `last` maps to the one at distance `delta`. -/
structure CaseRun where
  first : Nat
  last : Nat
  step : Nat
  delta : Int

def CaseRun.covers (r : CaseRun) (n : Nat) : Bool :=
  r.first ≤ n && n ≤ r.last && (n - r.first) % r.step == 0

/-- A code point at a distance from another. -/
def shift (n : Nat) (delta : Int) : Nat := (Int.ofNat n + delta).toNat

/-- The run that maps the results of another one back. -/
def CaseRun.back (r : CaseRun) : CaseRun :=
  ⟨shift r.first r.delta, shift r.last r.delta, r.step, -r.delta⟩

def smallRuns : List CaseRun :=
  [⟨224, 246, 1, -32⟩, ⟨248, 254, 1, -32⟩, ⟨257, 303, 2, -1⟩, ⟨307, 311, 2, -1⟩, ⟨314, 328, 2,
   -1⟩, ⟨331, 375, 2, -1⟩, ⟨378, 382, 2, -1⟩, ⟨417, 421, 2, -1⟩, ⟨462, 476, 2, -1⟩, ⟨479, 495,
   2, -1⟩, ⟨505, 543, 2, -1⟩, ⟨547, 563, 2, -1⟩, ⟨583, 591, 2, -1⟩, ⟨891, 893, 1, 130⟩, ⟨941,
   943, 1, -37⟩, ⟨945, 961, 1, -32⟩, ⟨963, 971, 1, -32⟩, ⟨985, 1007, 2, -1⟩, ⟨1072, 1103, 1,
   -32⟩, ⟨1104, 1119, 1, -80⟩, ⟨1121, 1153, 2, -1⟩, ⟨1163, 1215, 2, -1⟩, ⟨1218, 1230, 2, -1⟩,
   ⟨1233, 1327, 2, -1⟩, ⟨1377, 1414, 1, -48⟩, ⟨4304, 4346, 1, 3008⟩, ⟨4349, 4351, 1, 3008⟩,
   ⟨5112, 5117, 1, -8⟩, ⟨7681, 7829, 2, -1⟩, ⟨7841, 7935, 2, -1⟩, ⟨7936, 7943, 1, 8⟩, ⟨7952,
   7957, 1, 8⟩, ⟨7968, 7975, 1, 8⟩, ⟨7984, 7991, 1, 8⟩, ⟨8000, 8005, 1, 8⟩, ⟨8017, 8023, 2, 8⟩,
   ⟨8032, 8039, 1, 8⟩, ⟨8050, 8053, 1, 86⟩, ⟨8560, 8575, 1, -16⟩, ⟨9424, 9449, 1, -26⟩, ⟨11312,
   11359, 1, -48⟩, ⟨11368, 11372, 2, -1⟩, ⟨11393, 11491, 2, -1⟩, ⟨11520, 11557, 1, -7264⟩,
   ⟨42561, 42605, 2, -1⟩, ⟨42625, 42651, 2, -1⟩, ⟨42787, 42799, 2, -1⟩, ⟨42803, 42863, 2, -1⟩,
   ⟨42879, 42887, 2, -1⟩, ⟨42903, 42921, 2, -1⟩, ⟨42933, 42947, 2, -1⟩, ⟨42957, 42971, 2, -1⟩,
   ⟨43888, 43967, 1, -38864⟩, ⟨65345, 65370, 1, -32⟩, ⟨66600, 66639, 1, -40⟩, ⟨66776, 66811, 1,
   -40⟩, ⟨66967, 66977, 1, -39⟩, ⟨66979, 66993, 1, -39⟩, ⟨66995, 67001, 1, -39⟩, ⟨68800, 68850,
   1, -64⟩, ⟨68976, 68997, 1, -32⟩, ⟨71872, 71903, 1, -32⟩, ⟨93792, 93823, 1, -32⟩, ⟨93883,
   93907, 1, -27⟩, ⟨125218, 125251, 1, -34⟩]

/-- Small letters outside the runs, each before its capital. -/
def smallPairs : String :=
  "ÿŸƀɃƃƂƅƄƈƇƌƋƒƑƕǶƙƘƚȽƛꟜƞȠƨƧƭƬưƯƴƳƶƵƹƸƽƼƿǷǆǄǉǇǌǊǝƎǳǱǵǴȼȻȿⱾɀⱿɂɁɐⱯɑⱭɒⱰɓƁɔƆɖƉɗƊəƏɛƐɜꞫɠƓɡꞬɣƔɤꟋɥꞍɦꞪɨƗ" ++
  "ɩƖɪꞮɫⱢɬꞭɯƜɱⱮɲƝɵƟɽⱤʀƦʂꟅʃƩʇꞱʈƮʉɄʊƱʋƲʌɅʒƷʝꞲʞꞰͱͰͳͲͷͶάΆόΌύΎώΏϗϏϲϹϳͿϸϷϻϺӏӀᲊᲉᵹꝽᵽⱣᶎꟆὰᾺάΆὶῚίΊὸῸόΌὺῪύΎὼῺ" ++
  "ώΏᾰᾸᾱᾹῐῘῑῙῠῨῡῩῥῬⅎℲↄↃⱡⱠⱥȺⱦȾⱳⱲⱶⱵⳬⳫⳮⳭⳳⳲⴧჇⴭჍꝺꝹꝼꝻꞌꞋꞑꞐꞓꞒꞔꟄꟈꟇꟊꟉꟶꟵꭓꞳ𐖻𐖔𐖼𐖕"

/-- Letters whose capital has another small form. -/
def smallOnly : String :=
  "µΜıIſSǅǄǈǇǋǊǲǱͅΙςΣϐΒϑΘϕΦϖΠϰΚϱΡϵΕᲀВᲁДᲂОᲃСᲄТᲅТᲆЪᲇѢᲈꙊẛṠιΙ"

/-- Letters whose small form has another capital. -/
def capitalOnly : String :=
  "ǅǆǈǉǋǌǲǳϴθẞßᾈᾀᾉᾁᾊᾂᾋᾃᾌᾄᾍᾅᾎᾆᾏᾇᾘᾐᾙᾑᾚᾒᾛᾓᾜᾔᾝᾕᾞᾖᾟᾗᾨᾠᾩᾡᾪᾢᾫᾣᾬᾤᾭᾥᾮᾦᾯᾧᾼᾳῌῃῼῳΩωKkÅå"

def longerCapitals : String :=
  "ßSS ŉʼN ǰJ̌ ΐΪ́ ΰΫ́ ևԵՒ ẖH̱ ẗT̈ ẘW̊ ẙY̊ ẚAʾ ὐΥ̓ ὒΥ̓̀ ὔΥ̓́ ὖΥ̓͂ ᾀἈΙ ᾁἉΙ ᾂἊΙ ᾃἋΙ ᾄἌΙ ᾅἍΙ ᾆἎΙ " ++
  "ᾇἏΙ ᾈἈΙ ᾉἉΙ ᾊἊΙ ᾋἋΙ ᾌἌΙ ᾍἍΙ ᾎἎΙ ᾏἏΙ ᾐἨΙ ᾑἩΙ ᾒἪΙ ᾓἫΙ ᾔἬΙ ᾕἭΙ ᾖἮΙ ᾗἯΙ ᾘἨΙ ᾙἩΙ ᾚἪΙ ᾛἫΙ ᾜἬΙ ᾝἭΙ " ++
  "ᾞἮΙ ᾟἯΙ ᾠὨΙ ᾡὩΙ ᾢὪΙ ᾣὫΙ ᾤὬΙ ᾥὭΙ ᾦὮΙ ᾧὯΙ ᾨὨΙ ᾩὩΙ ᾪὪΙ ᾫὫΙ ᾬὬΙ ᾭὭΙ ᾮὮΙ ᾯὯΙ ᾲᾺΙ ᾳΑΙ ᾴΆΙ ᾶΑ͂ ᾷΑ͂Ι " ++
  "ᾼΑΙ ῂῊΙ ῃΗΙ ῄΉΙ ῆΗ͂ ῇΗ͂Ι ῌΗΙ ῒΪ̀ ΐΪ́ ῖΙ͂ ῗΪ͂ ῢΫ̀ ΰΫ́ ῤΡ̓ ῦΥ͂ ῧΫ͂ ῲῺΙ ῳΩΙ ῴΏΙ ῶΩ͂ ῷΩ͂Ι " ++
  "ῼΩΙ ﬀFF ﬁFI ﬂFL ﬃFFI ﬄFFL ﬅST ﬆST ﬓՄՆ ﬔՄԵ ﬕՄԻ ﬖՎՆ ﬗՄԽ"

def longerSmalls : String := "İi̇"

end Widgetry.Text
