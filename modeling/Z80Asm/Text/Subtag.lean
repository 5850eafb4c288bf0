/-!
# Known subtags

A language tag is made of subtags with a meaning fixed by registries.  This module has those for
scripts, regions and variants, and the names that stand for another one: the three letter names of
languages that have one of two letters, names out of use, and the numbers of regions.  All are in
lower case.
-/

namespace Z80Asm.Subtag

def words (lines : List String) : List String := lines.flatMap fun line => line.splitOn " "

/-- Pairs of names, written with a colon between them. -/
def renamings (lines : List String) : List (String × String) :=
  (words lines).filterMap fun word =>
    match word.splitOn ":" with
    | [old, new] => some (old, new)
    | _ => none

def scripts : List String :=
  words
    ["adlm afak aghb ahom arab aran armi armn avst bali bamu bass batk beng bhks blis bopo brah",
     "brai bugi buhd cakm cans cari cham cher cirt copt cprt cyrl cyrs deva dogr dsrt dupl egyd",
     "egyh egyp elba ethi geok geor glag gong gonm goth gran grek gujr guru hanb hang hani hano",
     "hans hant hatr hebr hira hluw hmng hrkt hung inds ital jamo java jpan jurc kali kana khar",
     "khmr khoj kitl kits knda kore kpel kthi lana laoo latf latg latn leke lepc limb lina linb",
     "lisu loma lyci lydi mahj maka mand mani marc maya medf mend merc mero mlym modi mong moon",
     "mroo mtei mult mymr narb nbat newa nkdb nkgb nkoo nshu ogam olck orkh orya osge osma palm",
     "pauc perm phag phli phlp phlv phnx piqd plrd prti qaaa qaab qaac qaad qaae qaaf qaag qaah",
     "qaai qaaj qaak qaal qaam qaan qaao qaap qaaq qaar qaas qaat qaau qaav qaaw qaax qaay qaaz",
     "qaba qabb qabc qabd qabe qabf qabg qabh qabi qabj qabk qabl qabm qabn qabo qabp qabq qabr",
     "qabs qabt qabu qabv qabw qabx rjng roro runr samr sara sarb saur sgnw shaw shrd shui sidd",
     "sind sinh sogd sogo sora soyo sund sylo syrc syre syrj syrn tagb takr tale talu taml tang",
     "tavt telu teng tfng tglg thaa thai tibt tirh ugar vaii visp wara wcho wole xpeo xsux yiii",
     "zanb zinh zmth zsye zsym zxxx zyyy zzzz"]

/-- The regions: countries by their two letters, larger regions by their number. -/
def regions : List String :=
  words
    ["001 002 003 005 009 011 013 014 015 017 018 019 021 029 030 034 035 039 053 054 057 061 142",
     "143 145 150 151 154 155 202 419 aa ac ad ae af ag ai al am an ao aq ar as at au aw ax az ba",
     "bb bd be bf bg bh bi bj bl bm bn bo bq br bs bt bu bv bw by bz ca cc cd cf cg ch ci ck cl",
     "cm cn co cp cr cs ct cu cv cw cx cy cz dd de dg dj dk dm do dy dz ea ec ee eg eh er es et",
     "eu ez fi fj fk fm fo fq fr fx ga gb gd ge gf gg gh gi gl gm gn gp gq gr gs gt gu gw gy hk",
     "hm hn hr ht hu hv ic id ie il im in io iq ir is it je jm jo jp jt ke kg kh ki km kn kp kr",
     "kw ky kz la lb lc li lk lr ls lt lu lv ly ma mc md me mf mg mh mi mk ml mm mn mo mp mq mr",
     "ms mt mu mv mw mx my mz na nc ne nf ng nh ni nl no np nq nr nt nu nz om pa pc pe pf pg ph",
     "pk pl pm pn pr ps pt pu pw py pz qa qm qn qo qp qq qr qs qt qu qv qw qx qy qz re rh ro rs",
     "ru rw sa sb sc sd se sg sh si sj sk sl sm sn so sr ss st su sv sx sy sz ta tc td tf tg th",
     "tj tk tl tm tn to tp tr tt tv tw tz ua ug uk um un us uy uz va vc vd ve vg vi vn vu wf wk",
     "ws xa xb xc xd xe xf xg xh xi xj xk xl xm xn xo xp xq xr xs xt xu xv xw xx xy xz yd ye yt",
     "yu za zm zr zw zz"]

def numberedRegions : List (String × String) :=
  renamings
    ["004:af 008:al 010:aq 012:dz 016:as 020:ad 024:ao 028:ag 031:az 032:ar 036:au 040:at 044:bs",
     "048:bh 050:bd 051:am 052:bb 056:be 060:bm 064:bt 068:bo 070:ba 072:bw 074:bv 076:br 084:bz",
     "086:io 090:sb 092:vg 096:bn 100:bg 104:mm 108:bi 112:by 116:kh 120:cm 124:ca 132:cv 136:ky",
     "140:cf 144:lk 148:td 152:cl 156:cn 158:tw 162:cx 166:cc 170:co 172:ru 174:km 175:yt 178:cg",
     "180:cd 184:ck 188:cr 191:hr 192:cu 196:cy 200:cz 203:cz 204:bj 208:dk 212:dm 214:do 218:ec",
     "222:sv 226:gq 230:et 231:et 232:er 233:ee 234:fo 238:fk 239:gs 242:fj 246:fi 248:ax 249:fr",
     "250:fr 254:gf 258:pf 260:tf 262:dj 266:ga 268:ge 270:gm 275:ps 276:de 278:de 280:de 288:gh",
     "292:gi 296:ki 300:gr 304:gl 308:gd 312:gp 316:gu 320:gt 324:gn 328:gy 332:ht 334:hm 336:va",
     "340:hn 344:hk 348:hu 352:is 356:in 360:id 364:ir 368:iq 372:ie 376:il 380:it 384:ci 388:jm",
     "392:jp 398:kz 400:jo 404:ke 408:kp 410:kr 414:kw 417:kg 418:la 422:lb 426:ls 428:lv 430:lr",
     "434:ly 438:li 440:lt 442:lu 446:mo 450:mg 454:mw 458:my 462:mv 466:ml 470:mt 474:mq 478:mr",
     "480:mu 484:mx 492:mc 496:mn 498:md 499:me 500:ms 504:ma 508:mz 512:om 516:na 520:nr 524:np",
     "528:nl 530:cw 531:cw 532:cw 533:aw 534:sx 535:bq 536:sa 540:nc 548:vu 554:nz 558:ni 562:ne",
     "566:ng 570:nu 574:nf 578:no 580:mp 581:um 582:fm 583:fm 584:mh 585:pw 586:pk 591:pa 598:pg",
     "600:py 604:pe 608:ph 612:pn 616:pl 620:pt 624:gw 626:tl 630:pr 634:qa 638:re 642:ro 643:ru",
     "646:rw 652:bl 654:sh 659:kn 660:ai 662:lc 663:mf 666:pm 670:vc 674:sm 678:st 682:sa 686:sn",
     "688:rs 690:sc 694:sl 702:sg 703:sk 704:vn 705:si 706:so 710:za 716:zw 720:ye 724:es 728:ss",
     "729:sd 732:eh 736:sd 740:sr 744:sj 748:sz 752:se 756:ch 760:sy 762:tj 764:th 768:tg 772:tk",
     "776:to 780:tt 784:ae 788:tn 792:tr 795:tm 796:tc 798:tv 800:ug 804:ua 807:mk 810:ru 818:eg",
     "826:gb 830:je 831:gg 832:je 833:im 834:tz 840:us 850:vi 854:bf 858:uy 860:uz 862:ve 876:wf",
     "882:ws 886:ye 887:ye 890:rs 891:rs 894:zm 958:aa 959:qm 960:qn 962:qp 963:qq 964:qr 965:qs",
     "966:qt 967:eu 968:qv 969:qw 970:qx 971:qy 972:qz 973:xa 974:xb 975:xc 976:xd 977:xe 978:xf",
     "979:xg 980:xh 981:xi 982:xj 983:xk 984:xl 985:xm 986:xn 987:xo 988:xp 989:xq 990:xr 991:xs",
     "992:xt 993:xu 994:xv 995:xw 996:xx 997:xy 998:xz 999:zz"]

def formerRegions : List (String × String) :=
  renamings
    ["bu:mm ct:ki dd:de dy:bj fq:aq fx:fr hv:bf jt:um mi:um nh:vu nq:aq pu:um pz:pa qu:eu rh:zw",
     "tp:tl uk:gb vd:vn wk:um yd:ye zr:cd"]

def variants : List String :=
  words
    ["1606nict 1694acad 1901 1959acad 1994 1996 abl1943 akuapem alalc97 aluku ao1990 aranes",
     "arevela arevmda arkaika asante auvern baku1926 balanka barla basiceng bauddha biscayan",
     "biske bohoric boont bornholm cisaup colb1945 cornu creiss dajnko ekavsk emodeng fonipa",
     "fonkirsh fonnapa fonupa fonxsamp gascon grclass grital grmistr hepburn heploc hognorsk",
     "hsistemo ijekavsk itihasa ivanchov jauer jyutping kkcor kociewie kscor laukika lemosin",
     "lengadoc lipaw luna1918 metelko monoton ndyuka nedis newfound nicard njiva nulik osojs",
     "oxendict pahawh2 pahawh3 pahawh4 pamaka peano petr1708 pinyin polyton provenc puter rigik",
     "rozaj rumgr scotland scouse simple solba sotav spanglis surmiran sursilv sutsilv tarask",
     "tongyong tunumiis uccor ucrcor ulster unifon vaidika valbadia valencia vallader vecdruka",
     "vivaraup wadegile xsistemo"]

def renamedLanguages : List (String × String) :=
  renamings
    ["aar:aa abk:ab afr:af aka:ak alb:sq amh:am ara:ar arg:an arm:hy asm:as ava:av ave:ae aym:ay",
     "aze:az bak:ba bam:bm baq:eu bel:be ben:bn bih:bh bis:bi bod:bo bos:bs bre:br bul:bg bur:my",
     "cat:ca ces:cs cha:ch che:ce chi:zh chu:cu chv:cv cor:kw cos:co cre:cr cym:cy cze:cs dan:da",
     "deu:de div:dv dut:nl dzo:dz ell:el eng:en epo:eo est:et eus:eu ewe:ee fao:fo fas:fa fij:fj",
     "fin:fi fra:fr fre:fr fry:fy ful:ff geo:ka ger:de gla:gd gle:ga glg:gl glv:gv gre:el grn:gn",
     "guj:gu hat:ht hau:ha heb:he her:hz hin:hi hmo:ho hrv:hr hun:hu hye:hy ibo:ig ice:is ido:io",
     "iii:ii iku:iu ile:ie in:id ina:ia ind:id ipk:ik isl:is ita:it iw:he jav:jv jaw:jv ji:yi",
     "jpn:ja jw:jv kal:kl kan:kn kas:ks kat:ka kau:kr kaz:kk khm:km kik:ki kin:rw kir:ky kom:kv",
     "kon:kg kor:ko kua:kj kur:ku lao:lo lat:la lav:lv lim:li lin:ln lit:lt ltz:lb lub:lu lug:lg",
     "mac:mk mah:mh mal:ml mao:mi mar:mr may:ms mkd:mk mlg:mg mlt:mt mo:ro mol:ro mon:mn mri:mi",
     "msa:ms mya:my nau:na nav:nv nbl:nr nde:nd ndo:ng nep:ne nld:nl nno:nn nob:nb nor:no nya:ny",
     "oci:oc oji:oj ori:or orm:om oss:os pan:pa per:fa pli:pi pol:pl por:pt pus:ps que:qu roh:rm",
     "ron:ro rum:ro run:rn rus:ru sag:sg san:sa scc:sr scr:hr sin:si slk:sk slo:sk slv:sl sme:se",
     "smo:sm sna:sn snd:sd som:so sot:st spa:es sqi:sq srd:sc srp:sr ssw:ss sun:su swa:sw swe:sv",
     "tah:ty tam:ta tat:tt tel:te tgk:tg tgl:fil tha:th tib:bo tir:ti tl:fil ton:to tsn:tn tso:ts",
     "tuk:tk tur:tr uig:ug ukr:uk urd:ur uzb:uz ven:ve vie:vi vol:vo wel:cy wln:wa wol:wo xho:xh",
     "yid:yi yor:yo zha:za zho:zh zul:zu"]

def language (subtag : String) : String := (renamedLanguages.lookup subtag).getD subtag

def region? (subtag : String) : Option String :=
  let name := (numberedRegions.lookup subtag).getD subtag
  if regions.contains name then some ((formerRegions.lookup name).getD name) else none

end Z80Asm.Subtag
