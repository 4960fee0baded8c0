import Midlevel.Text.CodePoints

/-!
Data of canonical normalisation: which code points are composed of which, and the canonical
combining classes of marks. Hangul syllables are composed by arithmetic and have no entries.
-/

namespace Midlevel.Text.Normal

/-- What a mark makes of the letters before it, for the pairs that are always composed again. -/
structure Composition where
  mark : Nat
  pairs : List (Nat × Nat)

/-- The composed code points are as far apart as `gaps` says. -/
def Composition.of (mark : Nat) (letters gaps : String) : Composition :=
  ⟨mark, (letters.toList.map Char.toNat).zip (points gaps)⟩

def Composition.undo? (r : Composition) (c : Nat) : Option (Nat × Nat) :=
  (r.pairs.find? (·.2 == c)).map fun p => (p.1, r.mark)

def compositions : List Composition := [
  .of 768 "AEIOUaeiouÜüNnЕИеиĒēŌōWwÂâĂăÊêÔôƠơƯưYyἀἁἈἉἐἑἘἙἠἡἨἩἰἱἸἹὀὁὈὉὐὑ"
    "HkieghhieghIsbB2TznCpnJT5C7BvbBlb9pbrb9nb7pb7777777777",
  .of 768 "ὙὠὡὨὩαεηιουωΑΕΗ᾿ϊΙ῾ϋΥ¨ΟΩ" "LWt77fccccccCkocdfidfidlc",
  .of 769 "AEIOUYaeiouyCcLlNnRrSsZzÜüGgÅåÆæØø¨ΑΕΗΙΟΥΩϊαεηιϋουωϒГКгкÇçĒē"
    "Hlieghdeieghd9Byb9qb5B4DpbB2511P02bc2bB21bB2bfBwjCtjJSubnb",
  .of 769 "ÏïKkMmÕõŌōPpŨũWwÂâĂăÊêÔôƠơƯưἀἁἈἉἐἑἘἙἠἡἨἩἰἱἸἹὀὁὈὉὐὑὙὠὡὨὩ᾿῾"
    "LL41nbnb51B99B79pbrb9nbB17777777777i77Dtq",
  .of 770 "AEIOUaeiouCcGgHhJjSsWwYyZzẠạẸẹỌọ" "Hmieghhieghnbtb7pbBnbx1bLAnbB1zbrb",
  .of 771 "ANOanoIiUuVvÂâĂăEeÊêÔôƠơƯưYy" "HnoeooeBzbClbLA7Btb977rb9nb9",
  .of 772 "AaEeIiOoUuÜüÄäȦȧÆæǪǫÖöÕõȮȯYyИиУуGgḶḷṚṛαΑιΙυΥ"
    "JwbrbxbB7B3E28119C9131BAlblbJO1xbB9Nciyiii",
  .of 774 "AaEeGgIiOoUuУИиуЖжАаЕеȨȩẠạαΑιΙυΥ" "Jybrb9nbB7B3ZxlBgBlDvbob5JOvbFxbJpiyiii",
  .of 775 "CcEeGgIZzAaOoBbDdFfHhMmNnPpRrSsŚśŠšṢṣTtWwXxYyſ" "K6lb9pCxbGob7KNzb7tb3B33r1b73111B133m",
  .of 776 "AEIOUaeiouyYΙΥιυϒЕІеіАаӘәЖжЗзИиОоӨөЭэУуЧчЫыHhÕõŪūWwXxt"
    "HohehgihehgdErVqbB5jBtgCwgEtb7115131333JNxbBnbBrb97k",
  .of 777 "AaÂâĂăEeÊêIiOoÔôƠơUuƯưYy" "LPqb59775559759", .of 778 "AaUuwy" "HpBgF7LB3",
  .of 779 "OoUuУу" "MybB5BInb",
  .of 780 "CcDdEeLlNnRrSsTtZzAaIiOoUuÜüGgKkƷʒjHh" "K81lbB89qb73ybD11115m1b5bBub",
  .of 783 "AaEeIiOoRrUuѴѵ" "Tsb33333Xlb", .of 785 "AaEeIiOoRrUu" "Tub33333",
  .of 787 "αΑεΕηΗιΙοΟυωΩρ" "LTgiiiiiiiiiiqiEu", .of 788 "αΑεΕηΗιΙοΟυΥωΩρΡ" "LThiiiiiiiiiiiiiEuh",
  .of 795 "OoUu" "Q0ob",
  .of 803 "BbDdHhKkLlMmNnRrSsTtVvWwZzAaEeIiOoƠơUuƯưYy" "LJob7xbnb3lb3tb79rb99nbxbr1bv1blb3",
  .of 804 "Uu" "LNub", .of 805 "Aa" "LJkb", .of 806 "SsTt" "Uq1b",
  .of 807 "CcGgKkLlNnRrSsTtEeDdHh" "HrBgC7tb49qb73HpbKOtbxb", .of 808 "AaEeIiUuOo" "K0tbvbCpbEpb",
  .of 813 "DdEeLlNnTtUu" "LK25B9nbBlb5", .of 814 "Hh" "LL0", .of 816 "EeIiUu" "LKkbrbCtb",
  .of 817 "BbDdKkLlNnRrTtZzh" "LJqb7Blb5nbvbpbBl1",
  .of 824 "←→↔⇐⇔⇒∃∈∋∣∥∼≃≅≈=≡≍<>≤≥≲≳≶≷≺≻⊂⊃⊆⊇⊢⊨⊩⊫≼≽⊑⊒⊲⊳⊴⊵" "MSwbtB5bCbfdycBbddcxcl1133733B91Bx1b71",
  .of 834 "ἀἁἈἉἠἡἨἩἰἱἸἹὐὑὙὠὡὨὩα¨η᾿ιϊ῾υϋω" "LTmb7xb777xbi77Ctlfj7i7p",
  .of 837 "ἀἁἂἃἄἅἆἇἈἉἊἋἌἍἎἏἠἡἢἣἤἥἦἧἨἩἪἫἬἭἮἯὠὡὢὣὤὥὦὧὨὩὪὫὬὭὮὯὰαάᾶΑὴηήῆΗὼω"
    "LY4111111111111111111111113bdf6bdfBmb",
  .of 837 "ώῶΩ" "MCqdf", .of 1619 "ا" "CIk", .of 1620 "اويەہے" "CIlbcFycr", .of 1621 "ا" "CIn",
  .of 2364 "नरळ" "DMfid", .of 2494 "ে" "DSl", .of 2519 "ে" "DSm", .of 2878 "େ" "EHf",
    .of 2902 "େ" "EHc",
  .of 2903 "େ" "EHg", .of 3006 "ெே" "EM2", .of 3031 "ஒெ" "EKaCe", .of 3158 "ె" "EQy",
    .of 3266 "ೆ" "EVy",
  .of 3285 "ಿೆೊ" "EVohe", .of 3286 "ೆ" "EVw", .of 3390 "െേ" "FAwb", .of 3415 "െ" "FAy",
    .of 3530 "ෙො" "FGkd",
  .of 3535 "ෙ" "FGm", .of 3551 "ෙ" "FGo", .of 4142 "ဥ" "GDa",
    .of 6965 "ᬅᬇᬉᬋᬍᬑᬺᬼᬾᬿᭂ" "KGccccceBpc3c",
  .of 12441 "かきくけこさしすせそたちつてとはひふへほうゝカキクケコサシスセソタチツテトハヒフヘホウワヰヱヲヽ"
    "SHocccccccccccdcchddddykocccccccccccdcchddddy31e",
  .of 12442 "はひふへほハヒフヘホ" "SIzddddDgdddd", .of 69818 "𑂙𑂛𑂥" "DZGccp", .of 69927 "𑄱𑄲" "DZLub",
    .of 70462 "𑍇" "EAGp",
  .of 70487 "𑍇" "EAGq", .of 70832 "𑒹" "EAUu", .of 70842 "𑒹" "EAUt", .of 70845 "𑒹" "EAUw",
    .of 71087 "𑖸𑖹" "EBEob",
  .of 71984 "𑤵" "ECMy"]

def exclusions : List Composition := [
  .of 769 "̈" "BGe", .of 824 "⫝" "QGa", .of 1460 "י" "DRCn", .of 1463 "ײא" "DRCpp",
  .of 1464 "א" "DRDf", .of 1465 "ו" "DREh",
  .of 1468 "אבגדהוזטיךכלמנסףפצקרשת" "DRD611b21bc2221b", .of 1471 "בכפ" "DRE8b",
  .of 1473 "ש" "DRDa", .of 1474 "ש" "DRDb", .of 2364 "कखगजडढफय" "DO0111",
  .of 2492 "ডঢয" "DT2c", .of 2620 "ਲਸਖਗਜਫ" "DWldB9bd", .of 2876 "ଡଢ" "EHwb", .of 3954 "ཱ" "FWd",
  .of 3956 "ཱ" "FWf", .of 3968 "ྲླཱ" "FWgcj", .of 4021 "ཀྐ" "FVtDc",
  .of 4023 "གཌདབཛྒྜྡྦྫ" "FUhkfffCdkfff", .of 119141 "𝅗𝅘𝆹𝆺" "GUG2Dob", .of 119150 "𝅘𝅥𝆹𝅥𝆺𝅥" "GUGeDpb",
  .of 119151 "𝅘𝅥𝆹𝅥𝆺𝅥" "GUGfDqb", .of 119152 "𝅘𝅥" "GUGg", .of 119153 "𝅘𝅥" "GUGh", .of 119154 "𝅘𝅥" "GUGi",
  ⟨1473, [(64329, 64300)]⟩, ⟨1474, [(64329, 64301)]⟩]

/-- Consecutive code points that are written as one other each. -/
structure Run where
  first : Nat
  others : List Nat

def Run.of (first : Nat) (others : String) : Run := ⟨first, others.toList.map Char.toNat⟩

def Run.find? (r : Run) (c : Nat) : Option Nat :=
  if r.first ≤ c then r.others[c - r.first]? else none

def aliases : List Run :=
  List.zipWith (fun p c => ⟨p, [c.toNat]⟩) (points "BG0cBxkjKOwccccccCkdlciiii3kcc3Lh4TqbDDJycoc3")
    "̀́̓ʹ;·άέήίόύώΆιΈΉΐΊΰΎ΅`ΌΏ´  ΩKÅ〈〉塚晴蘒諸逸都".toList ++ [
  .of 63744
    "豈更車賈滑串句龜龜契金喇奈懶癩羅蘿螺裸邏樂洛烙珞落酪駱亂卵欄爛蘭鸞嵐濫藍襤拉臘蠟廊朗浪狼郎來冷勞擄櫓爐盧老蘆虜路露魯鷺碌祿綠菉錄鹿論壟弄籠聾牢磊賂雷壘屢樓淚漏累縷陋勒肋凜凌稜綾菱陵讀拏樂諾丹寧怒率異北",
  .of 63844
    "磻便復不泌數索參塞省葉說殺辰沈拾若掠略亮兩凉梁糧良諒量勵呂女廬旅濾礪閭驪麗黎力曆歷轢年憐戀撚漣煉璉秊練聯輦蓮連鍊列劣咽烈裂說廉念捻殮簾獵令囹寧嶺怜玲瑩羚聆鈴零靈領例禮醴隸惡了僚寮尿料樂燎療蓼遼龍暈阮劉",
  .of 63944 "杻柳流溜琉留硫紐類六戮陸倫崙淪輪律慄栗率隆利吏履易李梨泥理痢罹裏裡里離匿溺吝燐璘藺隣鱗麟林淋臨立笠粒狀炙識什茶刺切度拓糖宅洞暴輻行降見廓兀嗀",
    .of 64021 "凞猪益礼神祥福靖精羽",
  .of 64042 "飯飼館鶴郞隷侮僧免勉勤卑喝嘆器塀墨層屮悔慨憎懲敏既暑梅海渚漢煮爫琢碑社祉祈祐祖祝禍禎穀突節練縉繁署者臭艹艹著褐視謁謹賓贈辶逸難響頻恵𤋮舘",
  .of 64112
    "並况全侀充冀勇勺喝啕喙嗢塚墳奄奔婢嬨廒廙彩徭惘慎愈憎慠懲戴揄搜摒敖晴朗望杖歹殺流滛滋漢瀞煮瞧爵犯猪瑱甆画瘝瘟益盛直睊着磌窱節类絛練缾者荒華蝹襁覆視調諸請謁諾諭謹變贈輸遲醙鉶陼難靖韛響頋頻鬒龜𢡊𢡄𣏕㮝䀘",
  .of 64212 "䀹𥉉𥳐𧻓齃龎",
  .of 194560
    "丽丸乁𠄢你侮侻倂偺備僧像㒞𠘺免兔兤具𠔜㒹內再𠕋冗冤仌冬况𩇟凵刃㓟刻剆割剷㔕勇勉勤勺包匆北卉卑博即卽卿卿卿𠨬灰及叟𠭣叫叱吆咞吸呈周咢哶唐啓啣善善喙喫喳嗂圖嘆圗噑噴切壮城埴堍型堲報墬𡓤売壷夆多夢奢𡚨𡛪姬娛",
  .of 194660
    "娧姘婦㛮㛼嬈嬾嬾𡧈寃寘寧寳𡬘寿将当尢㞁屠屮峀岍𡷤嵃𡷦嵮嵫嵼巡巢㠯巽帨帽幩㡢𢆃㡼庰庳庶廊𪎒廾𢌱𢌱舁弢弢㣇𣊸𦇚形彫㣣徚忍志忹悁㤺㤜悔𢛔惇慈慌慎慌慺憎憲憤憯懞懲懶成戛扝抱拔捐𢬌挽拼捨掃揤𢯱搢揅掩㨮摩摾撝摷㩬",
  .of 194760
    "敏敬𣀊旣書晉㬙暑㬈㫤冒冕最暜肭䏙朗望朡杞杓𣏃㭉柺枅桒梅𣑭梎栟椔㮝楂榣槪檨𣚣櫛㰘次𣢧歔㱎歲殟殺殻𣪍𡴋𣫺汎𣲼沿泍汧洖派海流浩浸涅𣴞洴港湮㴳滋滇𣻑淹潮𣽞𣾎濆瀹瀞瀛㶖灊災灷炭𠔥煅𤉣熜𤎫爨爵牐𤘈犀犕𤜵𤠔獺王㺬玥",
  .of 194860
    "㺸㺸瑇瑜瑱璅瓊㼛甤𤰶甾𤲒異𢆟瘐𤾡𤾸𥁄㿼䀈直𥃳𥃲𥄙𥄳眞真真睊䀹瞋䁆䂖𥐝硎碌磌䃣𥘦祖𥚚𥛅福秫䄯穀穊穏𥥼𥪧𥪧竮䈂𥮫篆築䈧𥲀糒䊠糨糣紀𥾆絣䌁緇縂繅䌴𦈨𦉇䍙𦋙罺𦌾羕翺者𦓚𦔣聠𦖨聰𣍟䏕育脃䐋脾媵𦞧𦞵𣎓𣎜舁舄辞䑫芑",
  .of 194960
    "芋芝劳花芳芽苦𦬼若茝荣莭茣莽菧著荓菊菌菜𦰶𦵫𦳕䔫蓱蓳蔖𧏊蕤𦼬䕝䕡𦾱𧃒䕫虐虜虧虩蚩蚈蜎蛢蝹蜨蝫螆䗗蟡蠁䗹衠衣𧙧裗裞䘵裺㒻𧢮𧥦䚾䛇誠諭變豕𧲨貫賁贛起𧼯𠠄跋趼跰𠣞軔輸𨗒𨗭邔郱鄑𨜮鄛鈸鋗鋘鉼鏹鐕𨯺開䦕閷𨵷䧦雃",
  .of 195060 "嶲霣𩅅𩈚䩮䩶韠𩐊䪲𩒖頋頋頩𩖶飢䬳餩馧駂駾䯎𩬰鬒鱀鳽䳎䳭鵧𪃎䳸𪄅𪈎𪊑麻䵖黹黾鼅鼏鼖鼻𪘀"]

structure Band (α : Type) where
  value : α
  points : CodePoints

def Band.of {α : Type} (value : α) (gaps : String) : Band α := ⟨value, .ofGaps gaps⟩

def inBands {α : Type} (bands : List (Band α)) (c : Nat) : Option α :=
  (bands.find? (·.points.contains c)).map (·.value)

def classes : List (Band Nat) := [
  .of 1 "BFofJS3nhBMncedkcdcDKJ3BKQgfBEY1HWqd", .of 6 "FJIuc",
  .of 7 "DMybExbExbExbExbJvbExbBI6EE4GvbD2CBP1BNAkbH2D8E3GwbDdcK5EubJsbJmbOwbK4BN8CZGxb",
  .of 8 "SKnc",
  .of 9 "
  DNpbExbExbExbExbExbExbExbEfcqbEubE7ExbHtbGycCPlcB4G1Z3ItbDxcCscGQtbBUKkbBlbFvbFmbE4LxbJmbBJSrbCH8B
  pbobC5ErcF9EmbGybDubJkbExbJsbExbEobEmbK9JzcG5D5sbD3Q5KacD3Qjc",
  .of 10 "CE0", .of 11 "CE1", .of 12 "CE2", .of 13 "CE3", .of 14 "CE4", .of 15 "CE5", .of 16 "CE6",
  .of 17 "CE7", .of 18 "CE8ob", .of 19 "CEjc", .of 20 "CElb", .of 21 "CEmb", .of 22 "CEnb",
  .of 23 "CEpb", .of 24 "CErb", .of 25 "CEsb", .of 26 "DRCob", .of 27 "CJzbBA0", .of 28 "CK0BA0",
  .of 29 "CK1BA0", .of 30 "CI0C1", .of 31 "CI1C1", .of 32 "CI2C1", .of 33 "CK5",
  .of 34 "CK6", .of 35 "CLkb", .of 36 "CRpb", .of 84 "ERlb", .of 91 "ERmb", .of 103 "FKac",
  .of 107 "FKqe", .of 118 "FOyc", .of 122 "FPoe", .of 129 "FW1", .of 130 "FW2he2", .of 132 "FW4",
  .of 202 "BEvcecKClb", .of 214 "LHmb", .of 216 "BEpbEP7GOMlchf", .of 218 "LJ4GX1",
  .of 220 "
  BEkecfceclfekddceeccVub44gg2B0Fnc52F162Cpb2c32b3111GnbkbDndCjdBzfpb22dd6ccD9CEvcB11FmbHqbDHlbImbDy
  bCbg2bccc5G5NwfcenbI474Bpb31BCqbdeBZPjdP0BFPqhBLnbIsbCSqbBsbGpbBOgdCsc3beBy1bCVLtihcHIwbBMfh",
  .of 222 "CD4sbHKlbIRzb", .of 224 "SGkc", .of 226 "GUGrb", .of 228 "CDybHEwbCAfcGX4",
  .of 230 "
  BDovBo8bdddd43hnKpfKg4dcgg2c2ubCxiChcc5cEphc4bccccCp12c32b3111cGe7bBi493fE2deBqffoc22dg3ccfD3bcGnb
  CChcccBLtdBS5NkbImbDpiBzfgcecc5eG0bhNkdhc4tbdcHq27ceBl52BBtccedc4516EOcdJeBgBTPvbekBgcDccTasR4bcdc
  f2bBFOwhhcBZyfCMubBobGqbWceOxcFz3bC11OpdXnhdfIzbBGWvhBMTifBgeFsdFFf7rc72fDwbGehOlbCjeTrbBQqg",
  .of 232 "BE94C9KC1GX7GJKhc", .of 233 "BH222KBxb", .of 234 "BHd2cKA3",
  .of 240 "BG5"]

/-- Code points whose compatibility decomposition starts or ends with more marks than their
canonical one: how many it starts and how many it ends with. -/
def compatibilityMarks : List (Band (Nat × Nat)) := [
  .of (0, 1) "
  Gmb643KhdKngG09KRw1cCicybBmbGFccRxrF328nb2qb84kb2CXWnckcGndBybCubDucKheBj31kbmEagIybDNSpb",
  .of (0, 2) "BIrbENp1bGE7ldndncDFMlgFmd",
  .of (1, 1) "SQl1cdgpvDACoc3bcdgsgcgcgcd"]

end Midlevel.Text.Normal
